import GraphQuery.Proofs.Query.Level

/-!
Merging without a bound on the height. Merged queries are made of the parts that the given queries
come to at their place, and merging fails for a clash among these, or below one of them.
-/

namespace GraphQuery

namespace MergePolicy

section Heights

variable {κ ε : Type} {policy : MergePolicy κ ε} {place : κ} {query : Query}

theorem height_specific_le (shared : List String) (query : Query) :
    (specific shared query).height ≤ query.height := by
  have positive := query.height_pos
  obtain ⟨bound, same⟩ : ∃ bound, query.height = bound + 1 := ⟨query.height - 1, by omega⟩
  have within := Query.height_le_iff.mp (Nat.le_of_eq same)
  rw [same, Query.height_le_iff]
  exact ⟨fun head inner member => within.1 head inner (List.mem_filter.mp member).1, within.2⟩

theorem height_lt_of_selection {selection : Selection} {inner : Query}
    (member : selection ∈ query.selections) (below : selection.inner? = some inner) :
    inner.height < query.height := by
  cases selection with
  | field head => cases below
  | link head query =>
      obtain rfl := Option.some.inj below
      exact Query.height_lt_of_link member

theorem height_lt_of_part {part : Part} (member : part ∈ policy.parts place query) {inner : Query}
    (below : part.below? = some inner) : inner.height < query.height := by
  induction query using Query.inductFragments with
  | step query ih =>
      rcases mem_parts_iff.mp member with ⟨selection, own, rfl⟩ | ⟨fragment, inside, ofFragment⟩
      · exact height_lt_of_selection own below
      · have lower := Query.height_lt_of_fragment inside
        cases ofFragment with
        | unconditional member => exact Nat.lt_trans (ih _ inside member) lower
        | expanded _ member => exact Nat.lt_trans (ih _ inside member) lower
        | hoisted _ own _ => exact Nat.lt_trans (height_lt_of_selection own below) lower
        | specific _ =>
            obtain rfl := Option.some.inj below
            exact Nat.lt_of_le_of_lt (height_specific_le _ _) lower
        | kept _ =>
            obtain rfl := Option.some.inj below
            exact lower

def partsAt (policy : MergePolicy κ ε) (place : κ) (queries : List Query) : List Part :=
  queries.flatMap (policy.parts place)

abbrev selectionsAt (policy : MergePolicy κ ε) (place : κ) (queries : List Query) :
    List Selection :=
  Part.selections (policy.partsAt place queries)

theorem height_lt_of_partsAt {queries : List Query} {part : Part}
    (member : part ∈ policy.partsAt place queries) {inner : Query}
    (below : part.below? = some inner) : inner.height < Query.heightOfAll queries := by
  obtain ⟨query, given, inside⟩ := List.mem_flatMap.mp member
  exact Nat.lt_of_lt_of_le (height_lt_of_part inside below) (Query.height_le_heightOfAll given)

theorem heightOfAll_lt_of_partsAt (policy : MergePolicy κ ε) (place : κ)
    {queries inners : List Query} (some : inners ≠ [])
    (each : ∀ inner ∈ inners, ∃ part ∈ policy.partsAt place queries, part.below? = .some inner) :
    Query.heightOfAll inners < Query.heightOfAll queries := by
  have lower : ∀ inner ∈ inners, inner.height < Query.heightOfAll queries := by
    intro inner member
    obtain ⟨part, inside, below⟩ := each inner member
    exact height_lt_of_partsAt inside below
  obtain ⟨first, member⟩ := List.exists_mem_of_ne_nil inners some
  have positive := lower first member
  have bounded : Query.heightOfAll inners ≤ Query.heightOfAll queries - 1 :=
    Query.heightOfAll_le_iff.mpr fun inner member => Nat.le_sub_one_of_lt (lower inner member)
  omega

end Heights

section Every

variable {κ ε : Type} {policy : MergePolicy κ ε} {place : κ} {queries : List Query} {key : String}
  {selection : Selection} {check : Head → Bool}

theorem own_of_under (under : selection ∈ Selection.under key (policy.selectionsAt place queries)) :
    .own selection ∈ policy.partsAt place queries :=
  Part.mem_selections_iff.mp (Selection.mem_under_iff.mp under).1

/-! What holds of all heads in some queries holds of the heads in what they are merged from -/

variable (passes : ∀ query ∈ queries, query.every check = true)

include passes

theorem every_of_partsAt {part : Part} (member : part ∈ policy.partsAt place queries) :
    part.every check = true := by
  obtain ⟨query, given, inside⟩ := List.mem_flatMap.mp member
  exact every_of_part (passes query given) inside

theorem every_of_under
    (member : selection ∈ Selection.under key (policy.selectionsAt place queries)) :
    selection.every check = true :=
  every_of_partsAt passes (own_of_under member)

theorem every_of_link {head : Head} {inner : Query}
    (member : .link head inner ∈ Selection.under key (policy.selectionsAt place queries)) :
    inner.every check = true :=
  (Selection.every_link_iff.mp (every_of_under passes member)).2

theorem every_of_inner {inner : Query}
    (member : inner ∈ (Selection.under key (policy.selectionsAt place queries)).filterMap
      Selection.inner?) : inner.every check = true := by
  obtain ⟨head, under⟩ := Selection.mem_filterMap_inner?_iff.mp member
  exact every_of_link passes under

theorem every_of_queriesOn {typeName : String} {inner : Query}
    (member : inner ∈ Part.queriesOn typeName (policy.partsAt place queries)) :
    inner.every check = true :=
  every_of_partsAt passes (Part.mem_queriesOn_iff.mp member)

end Every

section Levels

variable {κ ε : Type} {policy : MergePolicy κ ε} {place : κ}

def mergeLevel (policy : MergePolicy κ ε) (merge : κ → List Query → Except ε Query) (place : κ)
    (queries : List Query) : Except ε Query := do
  let gathered ← policy.gatherAll place queries
  let selections ← gathered.slots.values.mapM (policy.finishSlot place merge)
  let fragments ← policy.finishGroups place merge gathered.groups
  .ok (.mk selections fragments (queries.any Query.ordered))

def finishGroup (policy : MergePolicy κ ε) (place : κ) (merge : κ → List Query → Except ε Query)
    (group : String × List Query) : Except ε Fragment := do
  let query ← merge (policy.inside place group.1) group.2
  .ok (.mk (some group.1) query)

theorem finishGroups_eq (merge : κ → List Query → Except ε Query) (groups : Entries (List Query)) :
    policy.finishGroups place merge groups =
      (groups.mapM (policy.finishGroup place merge) >>= fun fragments =>
        .ok (fragments.filter fun fragment => !fragment.query.isEmpty)) := by
  induction groups with
  | nil => rfl
  | cons group rest ih =>
      obtain ⟨typeName, queries⟩ := group
      simp only [finishGroups, ih, List.mapM_cons, finishGroup, bind_assoc, ok_bind]
      refine bind_congr fun query => bind_congr fun fragments => ?_
      cases nothing : query.isEmpty with
      | true => simp [pure, Except.pure, Fragment.query, nothing]
      | false => simp [pure, Except.pure, Fragment.query, nothing]

end Levels

section Joining

variable {κ : Type} {policy : MergePolicy κ MergeError} {place : κ} {queries : List Query}

theorem gatherAll_cases (joins : policy.combine = Slot.join) (place : κ) (queries : List Query) :
    (Selection.Agreeing (policy.selectionsAt place queries) ∧
      policy.gatherAll place queries = .ok (.ofParts (policy.partsAt place queries))) ∨
    ∃ error, policy.gatherAll place queries = .error error ∧
      Selection.Clashing (policy.selectionsAt place queries) error := by
  rw [gatherAll_eq, joins]
  exact Gathered.foldlM_take _

theorem heightOfAll_lt_of_under {key : String} {head : Head} {query : Query}
    {rest : List Selection}
    (split : Selection.under key (policy.selectionsAt place queries) = .link head query :: rest) :
    Query.heightOfAll (query :: rest.filterMap Selection.inner?) < Query.heightOfAll queries := by
  have known : ∀ selection ∈ Selection.link head query :: rest,
      .own selection ∈ policy.partsAt place queries := by
    intro selection member
    rw [← split, Selection.mem_under_iff, Part.mem_selections_iff] at member
    exact member.1
  refine heightOfAll_lt_of_partsAt policy place (List.cons_ne_nil _ _) ?_
  intro inner member
  rcases List.mem_cons.mp member with rfl | member
  · exact ⟨_, known _ List.mem_cons_self, rfl⟩
  · obtain ⟨selection, inside, below⟩ := List.mem_filterMap.mp member
    exact ⟨_, known selection (List.mem_cons_of_mem _ inside), below⟩

theorem heightOfAll_lt_of_queriesOn {typeName : String}
    (some : Part.queriesOn typeName (policy.partsAt place queries) ≠ []) :
    Query.heightOfAll (Part.queriesOn typeName (policy.partsAt place queries)) <
      Query.heightOfAll queries := by
  refine heightOfAll_lt_of_partsAt policy place some ?_
  intro inner member
  exact ⟨_, Part.mem_queriesOn_iff.mp member, rfl⟩

/-- Two policies that read the same parts out of queries merge that level alike, if they do so with
what is below its links and in its groups. -/
theorem mergeLevel_eq_of_parts {κ' : Type} {policyToo : MergePolicy κ' MergeError} {placeToo : κ'}
    (joins : policy.combine = Slot.join) (joinsToo : policyToo.combine = Slot.join)
    (parts : policy.partsAt place queries = policyToo.partsAt placeToo queries)
    {merge : κ → List Query → Except MergeError Query}
    {mergeToo : κ' → List Query → Except MergeError Query}
    (below : ∀ name inners, inners ≠ [] →
      (∀ inner ∈ inners, ∃ head, .own (.link head inner) ∈ policy.partsAt place queries) →
      merge (policy.below place name) inners = mergeToo (policyToo.below placeToo name) inners)
    (inside : ∀ typeName inners, inners ≠ [] →
      (∀ inner ∈ inners, .group typeName inner ∈ policy.partsAt place queries) →
      merge (policy.inside place typeName) inners =
        mergeToo (policyToo.inside placeToo typeName) inners) :
    policy.mergeLevel merge place queries = policyToo.mergeLevel mergeToo placeToo queries := by
  have same : policy.gatherAll place queries = policyToo.gatherAll placeToo queries := by
    rw [gatherAll_eq, gatherAll_eq, joins, joinsToo]
    exact congrArg (List.foldlM (Gathered.take Slot.join) .empty) parts
  rcases gatherAll_cases joins place queries with ⟨agreeing, gathered⟩ | ⟨error, gathered, _⟩
  · have sameSlots : ∀ slot ∈ (Gathered.ofParts (policy.partsAt place queries)).slots.values,
        policy.finishSlot place merge slot = policyToo.finishSlot placeToo mergeToo slot := by
      intro slot member
      obtain ⟨⟨key, _⟩, found, rfl⟩ := List.mem_map.mp member
      have holds := Slot.holds_of_mem_gather agreeing found
      generalize split : Selection.under key _ = selections at holds
      cases holds with
      | field head rest => rfl
      | link head query rest =>
          rw [finishSlot, finishSlot, below _ _ (List.cons_ne_nil _ _) fun inner member => ?_]
          obtain ⟨headToo, under⟩ := (@Selection.mem_filterMap_inner?_iff
            (.link head query :: rest) inner).mp member
          exact ⟨headToo, own_of_under (split ▸ under)⟩
    have sameGroups : ∀ group ∈ (Gathered.ofParts (policy.partsAt place queries)).groups,
        policy.finishGroup place merge group = policyToo.finishGroup placeToo mergeToo group := by
      rintro ⟨typeName, inners⟩ member
      have known := Part.mem_keys_groups_iff.mp (List.mem_map.mpr ⟨_, member, rfl⟩)
      obtain rfl := Part.queries_of_mem_groups member
      rw [finishGroup, finishGroup,
        inside _ _ known fun inner grouped => Part.mem_queriesOn_iff.mp grouped]
    simp only [mergeLevel, ← same, gathered, ok_bind, finishGroups_eq]
    rw [mapM_congr sameSlots, mapM_congr sameGroups]
  · simp only [mergeLevel, ← same, gathered, error_bind]

/-- Only what is below one level of some queries matters to merging that level. -/
theorem mergeLevel_congr (joins : policy.combine = Slot.join)
    {merge other : κ → List Query → Except MergeError Query}
    (lower : ∀ place inners, Query.heightOfAll inners < Query.heightOfAll queries →
      merge place inners = other place inners) :
    policy.mergeLevel merge place queries = policy.mergeLevel other place queries := by
  refine mergeLevel_eq_of_parts joins joins rfl (fun name inners some each => lower _ _ ?_)
    fun typeName inners some each => lower _ _ ?_
  · refine heightOfAll_lt_of_partsAt policy place some fun inner member => ?_
    obtain ⟨head, own⟩ := each inner member
    exact ⟨_, own, rfl⟩
  · exact heightOfAll_lt_of_partsAt policy place some fun inner member =>
      ⟨_, each inner member, rfl⟩

theorem mergeWithin_nil (steps : Nat) (place : κ) :
    policy.mergeWithin steps place [] = .ok .empty := by
  cases steps <;> rfl

theorem merge_nil (place : κ) : policy.merge place [] = .ok .empty :=
  mergeWithin_nil _ _

/-- All numbers of steps that reach the height of some queries merge them alike. -/
theorem mergeWithin_eq (joins : policy.combine = Slot.join) {steps more : Nat}
    (enough : Query.heightOfAll queries ≤ steps) (enoughToo : Query.heightOfAll queries ≤ more) :
    policy.mergeWithin steps place queries = policy.mergeWithin more place queries := by
  induction steps generalizing more place queries with
  | zero =>
      obtain rfl := Query.eq_nil_of_heightOfAll enough
      rw [mergeWithin_nil, mergeWithin_nil]
  | succ steps ih =>
      cases more with
      | zero =>
          obtain rfl := Query.eq_nil_of_heightOfAll enoughToo
          rw [mergeWithin_nil, mergeWithin_nil]
      | succ more =>
          exact mergeLevel_congr joins fun place inners lower => ih (by omega) (by omega)

theorem merge_eq (joins : policy.combine = Slot.join) (place : κ) (queries : List Query) :
    policy.merge place queries = policy.mergeLevel policy.merge place queries := by
  -- one step more than is needed shows the level that the last step merges
  have more : policy.merge place queries =
      policy.mergeWithin (Query.heightOfAll queries + 1) place queries :=
    mergeWithin_eq joins (Nat.le_refl _) (Nat.le_succ _)
  rw [more]
  exact mergeLevel_congr joins fun place inners lower =>
    mergeWithin_eq joins (Nat.le_of_lt lower) (Nat.le_refl _)

inductive Finishes (policy : MergePolicy κ MergeError) (place : κ) :
    List Selection → Selection → Prop
  | field (head : Head) (rest : List Selection) :
      Finishes policy place (.field head :: rest) (.field (head.joinedTo rest))
  | link {head : Head} {query inner : Query} {rest : List Selection} :
      policy.merge (policy.below place head.name) (query :: rest.filterMap Selection.inner?) =
        .ok inner →
      Finishes policy place (.link head query :: rest) (.link (head.joinedTo rest) inner)

inductive FinishesGroup (policy : MergePolicy κ MergeError) (place : κ) (parts : List Part) :
    String → Fragment → Prop
  | mk {typeName : String} {inner : Query} :
      policy.merge (policy.inside place typeName) (Part.queriesOn typeName parts) = .ok inner →
      FinishesGroup policy place parts typeName (.mk (some typeName) inner)

/-- Merged queries: their parts agree, each key and each type name occurs once and in the order in
which it was first seen, and what is left empty is dropped. -/
structure Merges (policy : MergePolicy κ MergeError) (place : κ) (queries : List Query)
    (merged : Query) : Prop where
  agreeing : Selection.Agreeing (policy.selectionsAt place queries)
  selections : List.Forall₂
    (fun key => policy.Finishes place (Selection.under key (policy.selectionsAt place queries)))
    (Slot.gather (policy.selectionsAt place queries)).keys merged.selections
  fragments : ∃ fragments,
    List.Forall₂ (policy.FinishesGroup place (policy.partsAt place queries))
      (Part.groups (policy.partsAt place queries)).keys fragments ∧
    merged.fragments = fragments.filter fun fragment => !fragment.query.isEmpty
  ordered : merged.ordered = queries.any Query.ordered

inductive Fails (policy : MergePolicy κ MergeError) (place : κ) (queries : List Query) :
    MergeError → Prop
  | clash {error : MergeError} :
      Selection.Clashing (policy.selectionsAt place queries) error →
      Fails policy place queries error
  | below {key : String} {head : Head} {query : Query} {rest : List Selection}
      {error : MergeError} :
      Selection.under key (policy.selectionsAt place queries) = .link head query :: rest →
      policy.merge (policy.below place head.name) (query :: rest.filterMap Selection.inner?) =
        .error error → Fails policy place queries error
  | inside {typeName : String} {error : MergeError} :
      policy.merge (policy.inside place typeName)
        (Part.queriesOn typeName (policy.partsAt place queries)) = .error error →
      Fails policy place queries error

theorem finishes_of_finishSlot {selections : List Selection} {slot : Slot} {selection : Selection}
    (holds : slot.Holds selections)
    (finished : policy.finishSlot place policy.merge slot = .ok selection) :
    policy.Finishes place selections selection := by
  cases holds with
  | field head rest =>
      obtain rfl := Except.ok.inj finished
      exact .field head rest
  | link head query rest =>
      rw [finishSlot, bind_eq_ok_iff, Head.name_joinedTo] at finished
      obtain ⟨inner, merged, made⟩ := finished
      obtain rfl := Except.ok.inj made
      exact .link merged

theorem finishGroup_eq_ok {parts : List Part} {group : String × List Query} {fragment : Fragment}
    (member : group ∈ Part.groups parts)
    (finished : policy.finishGroup place policy.merge group = .ok fragment) :
    policy.FinishesGroup place parts group.1 fragment := by
  obtain ⟨typeName, inners⟩ := group
  rw [finishGroup, bind_eq_ok_iff] at finished
  obtain ⟨inner, merged, made⟩ := finished
  obtain rfl := Except.ok.inj made
  exact .mk (Part.queries_of_mem_groups member ▸ merged)

theorem merges_of_merge (joins : policy.combine = Slot.join) {merged : Query}
    (done : policy.merge place queries = .ok merged) : policy.Merges place queries merged := by
  rw [merge_eq joins, mergeLevel] at done
  rcases gatherAll_cases joins place queries with ⟨agreeing, gathered⟩ | ⟨error, gathered, _⟩
  · rw [gathered, ok_bind] at done
    obtain ⟨selections, finished, onward⟩ := bind_eq_ok_iff.mp done
    obtain ⟨kept, finishedGroups, made⟩ := bind_eq_ok_iff.mp onward
    obtain rfl := Except.ok.inj made
    rw [finishGroups_eq, bind_eq_ok_iff] at finishedGroups
    obtain ⟨fragments, all, filtered⟩ := finishedGroups
    obtain rfl := Except.ok.inj filtered
    refine ⟨agreeing, ?_, ⟨fragments, ?_, rfl⟩, rfl⟩
    · rw [mapM_eq_ok_iff, Entries.values, List.forall₂_map_left_iff] at finished
      rw [Entries.keys, List.forall₂_map_left_iff]
      refine ((List.forall₂_and_left _ _).mpr ⟨fun entry member => member, finished⟩).imp ?_
      rintro ⟨key, slot⟩ selection ⟨member, done⟩
      exact finishes_of_finishSlot (Slot.holds_of_mem_gather agreeing member) done
    · rw [mapM_eq_ok_iff] at all
      rw [Entries.keys, List.forall₂_map_left_iff]
      refine ((List.forall₂_and_left _ _).mpr ⟨fun group member => member, all⟩).imp ?_
      exact fun group fragment found => finishGroup_eq_ok found.1 found.2
  · rw [gathered, error_bind] at done
    cases done

theorem fails_of_merge (joins : policy.combine = Slot.join) {error : MergeError}
    (failed : policy.merge place queries = .error error) : policy.Fails place queries error := by
  rw [merge_eq joins, mergeLevel] at failed
  rcases gatherAll_cases joins place queries with ⟨agreeing, gathered⟩ | ⟨clash, gathered, clashing⟩
  · rw [gathered, ok_bind] at failed
    rcases bind_eq_error failed with failed | ⟨selections, _, failed⟩
    · obtain ⟨slot, member, failed⟩ := mapM_eq_error failed
      obtain ⟨⟨key, _⟩, inside, rfl⟩ := List.mem_map.mp member
      have holds := Slot.holds_of_mem_gather agreeing inside
      generalize split : Selection.under key _ = under at holds
      cases holds with
      | field head rest => cases failed
      | link head query rest =>
          rw [finishSlot, Head.name_joinedTo] at failed
          rcases bind_eq_error failed with failed | ⟨_, _, failed⟩
          · exact .below split failed
          · cases failed
    · rcases bind_eq_error failed with failed | ⟨fragments, _, failed⟩
      · rw [finishGroups_eq] at failed
        rcases bind_eq_error failed with failed | ⟨fragments, _, failed⟩
        · obtain ⟨⟨typeName, inners⟩, member, failed⟩ := mapM_eq_error failed
          obtain rfl := Part.queries_of_mem_groups member
          rcases bind_eq_error failed with failed | ⟨_, _, failed⟩
          · exact .inside failed
          · cases failed
        · cases failed
      · cases failed
  · rw [gathered, error_bind] at failed
    obtain rfl := Except.error.inj failed
    exact .clash clashing

theorem Finishes.split {selections : List Selection} {finished : Selection}
    (finishes : policy.Finishes place selections finished) :
    ∃ first rest, selections = first :: rest ∧ finished.isLink = first.isLink ∧
      finished.head = first.head.joinedTo rest := by
  cases finishes with
  | field head rest => exact ⟨_, _, rfl, rfl, rfl⟩
  | link merged => exact ⟨_, _, rfl, rfl, rfl⟩

theorem Finishes.inner {selections : List Selection} {head : Head} {inner : Query}
    (finishes : policy.Finishes place selections (.link head inner)) :
    policy.merge (policy.below place head.name) (selections.filterMap Selection.inner?) =
      .ok inner := by
  cases finishes with
  | link done =>
      rw [Head.name_joinedTo]
      exact done

theorem typeNames_of_finishesGroup {parts : List Part} {typeNames : List String}
    {fragments : List Fragment}
    (aligned : List.Forall₂ (policy.FinishesGroup place parts) typeNames fragments) :
    fragments.map Fragment.typeName? = typeNames.map some := by
  induction aligned with
  | nil => rfl
  | cons first _ ih =>
      cases first with
      | mk _ => exact congrArg (_ :: ·) ih

namespace Merges

variable {merged : Query}

theorem finishes_key {key : String} {selections : List Selection} {finished : Selection}
    (finishes : policy.Finishes place (Selection.under key selections) finished) :
    finished.resultKey = key := by
  obtain ⟨first, rest, split, _, head⟩ := finishes.split
  have inside : first ∈ Selection.under key selections := split ▸ List.mem_cons_self
  rw [Selection.resultKey, head, Head.resultKey_joinedTo]
  exact (Selection.mem_under_iff.mp inside).2

theorem keys_eq (merges : policy.Merges place queries merged) :
    merged.selections.map Selection.resultKey =
      (Slot.gather (policy.selectionsAt place queries)).keys := by
  have aligned := merges.selections
  generalize merged.selections = selections at aligned
  generalize Entries.keys _ = keys at aligned ⊢
  induction aligned with
  | nil => rfl
  | cons first _ ih => rw [List.map_cons, ih, finishes_key first]

theorem nodup (merges : policy.Merges place queries merged) :
    (merged.selections.map Selection.resultKey).Nodup :=
  merges.keys_eq ▸ Slot.nodup_keys_gather _

theorem finishes (merges : policy.Merges place queries merged) {finished : Selection}
    (member : finished ∈ merged.selections) : policy.Finishes place
      (Selection.under finished.resultKey (policy.selectionsAt place queries)) finished := by
  obtain ⟨key, _, finishes⟩ := exists_of_forall₂_right merges.selections member
  exact (finishes_key finishes).symm ▸ finishes

theorem exists_finished (merges : policy.Merges place queries merged) {selection : Selection}
    (member : .own selection ∈ policy.partsAt place queries) :
    ∃ finished ∈ merged.selections, finished.resultKey = selection.resultKey := by
  have inside := Selection.mem_under_iff.mpr ⟨Part.mem_selections_iff.mpr member, rfl⟩
  have known := Slot.mem_keys_gather_iff.mpr (List.ne_nil_of_mem inside)
  rw [← merges.keys_eq] at known
  exact List.mem_map.mp known

/-- A merged selection means what the first selection under its key means, and so do all others. -/
theorem exists_first (merges : policy.Merges place queries merged) {finished : Selection}
    (member : finished ∈ merged.selections) : ∃ first rest,
      .own first ∈ policy.partsAt place queries ∧ first.resultKey = finished.resultKey ∧
      finished.isLink = first.isLink ∧ finished.head = first.head.joinedTo rest ∧
      ∀ selection ∈ Selection.under finished.resultKey (policy.selectionsAt place queries),
        selection = first ∨ first.agrees selection = true := by
  obtain ⟨first, rest, split, kind, head⟩ := (merges.finishes member).split
  have under : first ∈ Selection.under finished.resultKey (policy.selectionsAt place queries) :=
    split ▸ List.mem_cons_self
  have inside := Selection.mem_under_iff.mp under
  refine ⟨first, rest, Part.mem_selections_iff.mp inside.1, inside.2, kind, head, ?_⟩
  intro selection under
  rw [split] at under
  rcases List.mem_cons.mp under with same | other
  · exact .inl same
  · exact .inr (merges.agreeing _ first rest split selection other)

theorem isLink_eq (merges : policy.Merges place queries merged) {finished selection : Selection}
    (member : finished ∈ merged.selections)
    (under : selection ∈ Selection.under finished.resultKey (policy.selectionsAt place queries)) :
    finished.isLink = selection.isLink := by
  obtain ⟨first, _, _, _, kind, _, means⟩ := merges.exists_first member
  rcases means selection under with rfl | agrees
  · exact kind
  · exact kind.trans (Selection.agrees_iff.mp agrees).1

theorem exists_below (merges : policy.Merges place queries merged) {key : String} {head : Head}
    {query : Query} {rest : List Selection}
    (split : Selection.under key (policy.selectionsAt place queries) = .link head query :: rest) :
    ∃ inner, policy.merge (policy.below place head.name)
      (query :: rest.filterMap Selection.inner?) = .ok inner := by
  have known := Slot.mem_keys_gather_iff.mpr (split ▸ List.cons_ne_nil _ rest)
  obtain ⟨finished, _, finishes⟩ := exists_of_forall₂_left merges.selections known
  rw [split] at finishes
  cases finishes with
  | link done => exact ⟨_, done⟩

theorem of_link (merges : policy.Merges place queries merged) {head : Head} {inner : Query}
    (member : .link head inner ∈ merged.selections) : ∃ inners,
      policy.merge (policy.below place head.name) inners = .ok inner ∧
      Query.heightOfAll inners < Query.heightOfAll queries ∧
      ∀ query, query ∈ inners ↔ ∃ headToo, .link headToo query ∈
        Selection.under head.resultKey (policy.selectionsAt place queries) := by
  have finishes := merges.finishes member
  simp only [Selection.resultKey, Selection.head] at finishes
  generalize under : Selection.under _ _ = selections at finishes ⊢
  cases finishes with
  | @link first query _ rest done =>
      rw [Head.name_joinedTo]
      exact ⟨_, done, heightOfAll_lt_of_under under,
        fun _ => @Selection.mem_filterMap_inner?_iff (.link first query :: rest) _⟩

theorem of_fragment (merges : policy.Merges place queries merged) {fragment : Fragment}
    (member : fragment ∈ merged.fragments) : ∃ typeName,
      Part.queriesOn typeName (policy.partsAt place queries) ≠ [] ∧
      policy.FinishesGroup place (policy.partsAt place queries) typeName fragment := by
  obtain ⟨fragments, aligned, same⟩ := merges.fragments
  rw [same, List.mem_filter] at member
  obtain ⟨typeName, known, finishes⟩ := exists_of_forall₂_right aligned member.1
  exact ⟨typeName, Part.mem_keys_groups_iff.mp known, finishes⟩

/-- The queries on a type name are merged, and nothing selected is dropped. -/
theorem exists_inside (merges : policy.Merges place queries merged) {typeName : String}
    {query : Query} (member : .group typeName query ∈ policy.partsAt place queries) :
    ∃ inner, policy.merge (policy.inside place typeName)
        (Part.queriesOn typeName (policy.partsAt place queries)) = .ok inner ∧
      (inner.isEmpty = true ∨ .mk (some typeName) inner ∈ merged.fragments) := by
  have inside := Part.mem_queriesOn_iff.mpr member
  have known := Part.mem_keys_groups_iff.mpr (List.ne_nil_of_mem inside)
  obtain ⟨fragments, aligned, same⟩ := merges.fragments
  obtain ⟨fragment, memberToo, finishes⟩ := exists_of_forall₂_left aligned known
  cases finishes with
  | @mk inner done =>
      refine ⟨inner, done, ?_⟩
      cases nothing : inner.isEmpty with
      | true => exact .inl rfl
      | false =>
          rw [same]
          exact .inr (List.mem_filter.mpr ⟨memberToo, by simp [Fragment.query, nothing]⟩)

end Merges

/-- What passes a check is merged into what passes it, if joining selections keeps to the check. -/
theorem every_of_merge (joins : policy.combine = Slot.join) {check : Head → Bool}
    (joined : ∀ (first : Selection) (rest : List Selection),
      (∀ selection ∈ first :: rest, check selection.head = true) →
        check (first.head.joinedTo rest) = true)
    (passes : ∀ query ∈ queries, query.every check = true)
    (done : policy.merge place queries = .ok merged) : merged.every check = true := by
  induction queries using Query.inductAll generalizing place merged with
  | step queries ih =>
      have merges := merges_of_merge joins done
      have head : ∀ finished ∈ merged.selections, check finished.head = true := by
        intro finished member
        obtain ⟨first, rest, split, _, same⟩ := (merges.finishes member).split
        rw [same]
        refine joined first rest fun selection inside => ?_
        rw [← split] at inside
        exact Selection.every_head (every_of_under passes inside)
      have below : ∀ head inner, .link head inner ∈ merged.selections →
          inner.every check = true := by
        intro head inner member
        obtain ⟨inners, done, lower, made⟩ := merges.of_link member
        refine ih inners lower (fun query inside => ?_) done
        obtain ⟨headToo, under⟩ := (made query).mp inside
        exact every_of_link passes under
      have inside : ∀ fragment ∈ merged.fragments, fragment.query.every check = true := by
        intro fragment member
        obtain ⟨typeName, known, finishes⟩ := merges.of_fragment member
        cases finishes with
        | mk done =>
            exact ih _ (heightOfAll_lt_of_queriesOn known)
              (fun query inside => every_of_queriesOn passes inside) done
      obtain ⟨selections, fragments, ordered⟩ := merged
      refine Query.every_mk_iff.mpr ⟨fun selection member => ?_, inside⟩
      cases selection with
      | field field => exact head _ member
      | link link inner =>
          exact Selection.every_link_iff.mpr ⟨head _ member, below _ _ member⟩

end Joining

end MergePolicy

end GraphQuery
