import GraphQuery.Proofs.Query.Merging

/-!
When merging fails. Every selection in a query has an address, and queries cannot be merged exactly
when two selections at one address have one key in the result and mean different things.
-/

namespace GraphQuery

inductive Hop where
  | link (key : String)
  | on (typeName : String)
  deriving DecidableEq

structure Occurrence where
  address : List Hop
  selection : Selection

namespace Occurrence

def below (hop : Hop) (occurrence : Occurrence) : Occurrence :=
  ⟨hop :: occurrence.address, occurrence.selection⟩

/-- Two occurrences with one address and one key in the result differ in kind, name or options. -/
structure Collides (occurrence other : Occurrence) : Prop where
  address : occurrence.address = other.address
  key : occurrence.selection.resultKey = other.selection.resultKey
  differs : occurrence.selection.isLink ≠ other.selection.isLink ∨
    occurrence.selection.name ≠ other.selection.name ∨
    sameOptions occurrence.selection.options? other.selection.options? = false

mutual

/-- All selections of a query and of what is below it. A fragment without a type name leaves no
trace in the address of what is in it. -/
def ofQuery : Query → List Occurrence
  | .mk selections fragments _ => ofSelections selections ++ ofFragments fragments

def ofSelections : List Selection → List Occurrence
  | [] => []
  | selection :: rest => ofSelection selection ++ ofSelections rest

def ofSelection : Selection → List Occurrence
  | .field head => [⟨[], .field head⟩]
  | .link head query =>
      ⟨[], .link head query⟩ :: (ofQuery query).map (below (.link head.resultKey))

def ofFragments : List Fragment → List Occurrence
  | [] => []
  | fragment :: rest => ofFragment fragment ++ ofFragments rest

def ofFragment : Fragment → List Occurrence
  | .mk none query => ofQuery query
  | .mk (some typeName) query => (ofQuery query).map (below (.on typeName))

end

def ofPart : Part → List Occurrence
  | .own selection => ofSelection selection
  | .group typeName query => (ofQuery query).map (below (.on typeName))

def ofQueries (queries : List Query) : List Occurrence :=
  queries.flatMap ofQuery

theorem ofSelections_eq (selections : List Selection) :
    ofSelections selections = selections.flatMap ofSelection := by
  induction selections with
  | nil => rfl
  | cons selection rest ih => rw [ofSelections, ih, List.flatMap_cons]

theorem ofFragments_eq (fragments : List Fragment) :
    ofFragments fragments = fragments.flatMap ofFragment := by
  induction fragments with
  | nil => rfl
  | cons fragment rest ih => rw [ofFragments, ih, List.flatMap_cons]

abbrev plain : MergePolicy Unit MergeError :=
  .plain Slot.join

theorem ofQuery_eq (query : Query) :
    ofQuery query = (plain.parts () query).flatMap ofPart := by
  induction query using Query.inductFragments with
  | step query ih =>
      rw [MergePolicy.parts_eq, List.flatMap_append, List.flatMap_map, List.flatMap_assoc]
      obtain ⟨selections, fragments, ordered⟩ := query
      rw [ofQuery, ofSelections_eq, ofFragments_eq]
      congr 1
      refine List.flatMap_congr fun fragment member => ?_
      have inside := ih fragment member
      obtain ⟨_ | typeName, inner⟩ := fragment
      · exact inside
      · exact (List.append_nil _).symm

theorem ofQueries_eq (queries : List Query) :
    ofQueries queries = (plain.partsAt () queries).flatMap ofPart := by
  rw [ofQueries, MergePolicy.partsAt, List.flatMap_assoc]
  exact List.flatMap_congr fun query _ => ofQuery_eq query

/-! The selections at one address -/

def at? (address : List Hop) (occurrence : Occurrence) : Option Selection :=
  if occurrence.address = address then some occurrence.selection else none

def selectionsAt (address : List Hop) (queries : List Query) : List Selection :=
  (ofQueries queries).filterMap (at? address)

theorem at?_eq_some_iff {address : List Hop} {occurrence : Occurrence} {selection : Selection} :
    at? address occurrence = some selection ↔
      occurrence.address = address ∧ occurrence.selection = selection := by
  rw [at?, Option.ite_none_right_eq_some, Option.some.injEq]

theorem selectionsAt_flatMap (address : List Hop) (queries : List Query) :
    selectionsAt address queries =
      queries.flatMap fun query => (ofQuery query).filterMap (at? address) := by
  rw [selectionsAt, ofQueries, List.filterMap_flatMap]

theorem filterMap_below_nil (hop : Hop) (occurrences : List Occurrence) :
    (occurrences.map (below hop)).filterMap (at? []) = [] := by
  rw [List.filterMap_map, List.filterMap_eq_nil_iff]
  intro occurrence _
  simp [at?, below]

theorem filterMap_below_cons (hop first : Hop) (rest : List Hop) (occurrences : List Occurrence) :
    (occurrences.map (below hop)).filterMap (at? (first :: rest)) =
      if hop = first then occurrences.filterMap (at? rest) else [] := by
  rw [List.filterMap_map]
  split
  · rename_i same
    subst same
    refine List.filterMap_congr fun occurrence _ => ?_
    simp [at?, below]
  · rename_i different
    rw [List.filterMap_eq_nil_iff]
    intro occurrence _
    simp [at?, below, different]

theorem selectionsAt_nil (queries : List Query) :
    selectionsAt [] queries = plain.selectionsAt () queries := by
  rw [selectionsAt, ofQueries_eq, List.filterMap_flatMap, MergePolicy.selectionsAt]
  induction plain.partsAt () queries with
  | nil => rfl
  | cons part rest ih =>
      rw [List.flatMap_cons, ih]
      cases part with
      | own selection =>
          cases selection with
          | field head => rfl
          | link head query =>
              rw [ofPart, ofSelection, List.filterMap_cons, filterMap_below_nil]
              rfl
      | group typeName query =>
          rw [ofPart, filterMap_below_nil]
          rfl

theorem selectionsAt_link (key : String) (rest : List Hop) (queries : List Query) :
    selectionsAt (.link key :: rest) queries = selectionsAt rest
      ((Selection.under key (plain.selectionsAt () queries)).filterMap Selection.inner?) := by
  rw [selectionsAt_flatMap rest, selectionsAt, ofQueries_eq, List.filterMap_flatMap,
    MergePolicy.selectionsAt]
  induction plain.partsAt () queries with
  | nil => rfl
  | cons part parts ih =>
      rw [List.flatMap_cons, ih]
      cases part with
      | own selection =>
          rw [Part.selections_cons_own, Selection.under_cons]
          cases selection with
          | field head => split <;> rfl
          | link head query =>
              rw [ofPart, ofSelection, List.filterMap_cons_none rfl, filterMap_below_cons]
              by_cases same : (Selection.link head query).resultKey = key
              · have here : Hop.link head.resultKey = .link key := congrArg Hop.link same
                rw [if_pos same, if_pos here]
                rfl
              · have apart : Hop.link head.resultKey ≠ .link key :=
                  fun equal => same (Hop.link.inj equal)
                rw [if_neg same, if_neg apart]
                rfl
      | group typeName query =>
          rw [ofPart, filterMap_below_cons]
          rfl

theorem selectionsAt_on (typeName : String) (rest : List Hop) (queries : List Query) :
    selectionsAt (.on typeName :: rest) queries =
      selectionsAt rest (Part.queriesOn typeName (plain.partsAt () queries)) := by
  rw [selectionsAt_flatMap rest, selectionsAt, ofQueries_eq, List.filterMap_flatMap]
  induction plain.partsAt () queries with
  | nil => rfl
  | cons part parts ih =>
      rw [List.flatMap_cons, ih]
      cases part with
      | own selection =>
          cases selection with
          | field head => rfl
          | link head query =>
              rw [ofPart, ofSelection, List.filterMap_cons_none rfl, filterMap_below_cons]
              rfl
      | group other query =>
          simp only [ofPart, filterMap_below_cons, Hop.on.injEq, Part.queriesOn_cons_group]
          split <;> rfl

theorem every_of_selectionsAt {check : Head → Bool} {queries : List Query}
    (passes : ∀ query ∈ queries, query.every check = true) {address : List Hop}
    {selection : Selection} (member : selection ∈ selectionsAt address queries) :
    selection.every check = true := by
  induction address generalizing queries with
  | nil =>
      rw [selectionsAt_nil, Part.mem_selections_iff] at member
      exact MergePolicy.every_of_partsAt passes member
  | cons hop rest ih =>
      cases hop with
      | link key =>
          rw [selectionsAt_link] at member
          exact ih (fun _ inside => MergePolicy.every_of_inner passes inside) member
      | on typeName =>
          rw [selectionsAt_on] at member
          exact ih (fun _ inside => MergePolicy.every_of_queriesOn passes inside) member

/-! Merging and the selections at each address -/

theorem exists_clashing_of_merge {queries : List Query} {error : MergeError}
    (failed : Query.merge queries = .error error) :
    ∃ address, Selection.Clashing (selectionsAt address queries) error := by
  induction queries using Query.inductAll with
  | step queries ih =>
      cases MergePolicy.fails_of_merge rfl failed with
      | clash clashing => exact ⟨[], selectionsAt_nil queries ▸ clashing⟩
      | @below key head query rest _ split failed =>
          have lower := MergePolicy.heightOfAll_lt_of_under split
          obtain ⟨address, clashing⟩ := ih _ lower failed
          refine ⟨.link key :: address, ?_⟩
          rw [selectionsAt_link, split]
          exact clashing
      | @inside typeName _ failed =>
          have some : Part.queriesOn typeName (plain.partsAt () queries) ≠ [] := by
            intro none
            rw [none, MergePolicy.merge_nil] at failed
            cases failed
          have lower := MergePolicy.heightOfAll_lt_of_queriesOn some
          obtain ⟨address, clashing⟩ := ih _ lower failed
          exact ⟨.on typeName :: address, selectionsAt_on typeName address queries ▸ clashing⟩

theorem agreeing_of_merge {queries : List Query} {merged : Query}
    (done : Query.merge queries = .ok merged) (address : List Hop) :
    Selection.Agreeing (selectionsAt address queries) := by
  induction address generalizing queries merged with
  | nil => exact selectionsAt_nil queries ▸ (MergePolicy.merges_of_merge rfl done).agreeing
  | cons hop rest ih =>
      have merges := MergePolicy.merges_of_merge rfl done
      cases hop with
      | link key =>
          rw [selectionsAt_link]
          cases split : Selection.under key (plain.selectionsAt () queries) with
          | nil => exact Selection.agreeing_nil
          | cons first others =>
              cases first with
              | field head =>
                  have fields : others.filterMap Selection.inner? = [] := by
                    refine List.filterMap_eq_nil_iff.mpr fun other member => ?_
                    have same := merges.agreeing key _ others split other member
                    cases other with
                    | field _ => rfl
                    | link _ _ => simp [Selection.agrees, Selection.isLink] at same
                  rw [List.filterMap_cons_none rfl, fields]
                  exact Selection.agreeing_nil
              | link head query =>
                  obtain ⟨inner, doneInner⟩ := merges.exists_below split
                  exact ih doneInner
      | on typeName =>
          rw [selectionsAt_on]
          cases split : Part.queriesOn typeName (plain.partsAt () queries) with
          | nil => exact Selection.agreeing_nil
          | cons query others =>
              have member : query ∈ Part.queriesOn typeName (plain.partsAt () queries) :=
                split ▸ List.mem_cons_self
              obtain ⟨inner, merged, _⟩ := merges.exists_inside (Part.mem_queriesOn_iff.mp member)
              exact split ▸ ih merged

end Occurrence

namespace Selection

variable {selections : List Selection} {selection other : Selection}

theorem Clashing.sublist {error : MergeError} (clashing : Clashing selections error) :
    ∃ selection other, [selection, other].Sublist selections ∧
      selection.resultKey = other.resultKey ∧ selection.agrees other = false ∧
      error = selection.clash other := by
  obtain ⟨key, first, rest, split, other, member, differs, same⟩ := clashing
  have pair : [first, other].Sublist (under key selections) :=
    split ▸ (List.singleton_sublist.mpr member).cons_cons first
  have keys : ∀ selection ∈ first :: rest, selection.resultKey = key :=
    fun selection member => (mem_under_iff.mp (split ▸ member)).2
  refine ⟨first, other, pair.trans List.filter_sublist, ?_, differs, same⟩
  rw [keys first List.mem_cons_self, keys other (List.mem_cons_of_mem _ member)]

theorem agrees_eq_false_iff : selection.agrees other = false ↔ selection.isLink ≠ other.isLink ∨
    selection.name ≠ other.name ∨ sameOptions selection.options? other.options? = false := by
  simp only [agrees, Head.agrees, Bool.and_eq_false_iff, beq_eq_false_iff_ne]
  rfl

end Selection

namespace Query

def Colliding (queries : List Query) (occurrence other : Occurrence) : Prop :=
  ∃ i j : Nat, i ≠ j ∧ (Occurrence.ofQueries queries)[i]? = some occurrence ∧
    (Occurrence.ofQueries queries)[j]? = some other ∧ occurrence.Collides other

variable {queries : List Query}

theorem exists_colliding_of_merge {error : MergeError} (failed : merge queries = .error error) :
    ∃ occurrence other, Colliding queries occurrence other ∧
      error = occurrence.selection.clash other.selection := by
  obtain ⟨address, clashing⟩ := Occurrence.exists_clashing_of_merge failed
  obtain ⟨selection, other, pair, key, differs, same⟩ := clashing.sublist
  by_contra none
  -- otherwise no two selections at the address would clash in this way
  have apart : (Occurrence.selectionsAt address queries).Pairwise fun selection other =>
      ¬ (selection.resultKey = other.resultKey ∧ selection.agrees other = false ∧
        error = selection.clash other) := by
    rw [Occurrence.selectionsAt, List.pairwise_filterMap, List.pairwise_iff_getElem]
    intro i j inside insideToo before selection found other foundOther ⟨key, differs, same⟩
    obtain ⟨here, rfl⟩ := Occurrence.at?_eq_some_iff.mp found
    obtain ⟨there, rfl⟩ := Occurrence.at?_eq_some_iff.mp foundOther
    exact none ⟨_, _, ⟨i, j, Nat.ne_of_lt before, List.getElem?_eq_getElem inside,
      List.getElem?_eq_getElem insideToo,
      ⟨here.trans there.symm, key, Selection.agrees_eq_false_iff.mp differs⟩⟩, same⟩
  exact List.pairwise_iff_forall_sublist.mp apart pair ⟨key, differs, same⟩

theorem not_colliding_of_merge (keyed : ∀ query ∈ queries, query.isKeyed = true) {merged : Query}
    (done : merge queries = .ok merged) (occurrence other : Occurrence) :
    ¬ Colliding queries occurrence other := by
  rintro ⟨i, j, different, found, foundOther, address, key, differs⟩
  have disagree := Selection.agrees_eq_false_iff.mpr differs
  have heads : ∀ selection ∈ Occurrence.selectionsAt occurrence.address queries,
      selection.head.isKeyed = true :=
    fun selection member => Selection.every_head (Occurrence.every_of_selectionsAt keyed member)
  have agree := (Occurrence.agreeing_of_merge done occurrence.address).pairwise heads
  rw [Occurrence.selectionsAt, List.pairwise_filterMap, List.pairwise_iff_getElem] at agree
  have here : Occurrence.at? occurrence.address occurrence = some occurrence.selection :=
    Occurrence.at?_eq_some_iff.mpr ⟨rfl, rfl⟩
  have there : Occurrence.at? occurrence.address other = some other.selection :=
    Occurrence.at?_eq_some_iff.mpr ⟨address.symm, rfl⟩
  obtain ⟨inside, rfl⟩ := List.getElem?_eq_some_iff.mp found
  obtain ⟨insideToo, rfl⟩ := List.getElem?_eq_some_iff.mp foundOther
  rcases Nat.lt_or_gt_of_ne different with before | after
  · rw [agree i j inside insideToo before _ here _ there key] at disagree
    cases disagree
  · have back := agree j i insideToo inside after _ there _ here key.symm
    have keyedHere := heads _ (List.mem_filterMap.mpr ⟨_, List.getElem_mem inside, here⟩)
    have keyedThere := heads _ (List.mem_filterMap.mpr ⟨_, List.getElem_mem insideToo, there⟩)
    rw [Selection.agrees_symm keyedThere keyedHere back] at disagree
    cases disagree

/-- Queries cannot be merged exactly when two different occurrences in them collide. The error names
the key of two such occurrences and whether these are of one kind. -/
theorem merge_fails_iff (keyed : ∀ query ∈ queries, query.isKeyed = true) :
    ((∃ error, merge queries = .error error) ↔
        ∃ occurrence other, Colliding queries occurrence other) ∧
      ∀ error, merge queries = .error error → ∃ occurrence other,
        Colliding queries occurrence other ∧
        error = if occurrence.selection.isLink = other.selection.isLink
          then .distinctSelections occurrence.selection.resultKey
          else .fieldLinkCollision occurrence.selection.resultKey := by
  refine ⟨⟨?_, ?_⟩, ?_⟩
  · rintro ⟨error, failed⟩
    obtain ⟨occurrence, other, colliding, _⟩ := exists_colliding_of_merge failed
    exact ⟨occurrence, other, colliding⟩
  · rintro ⟨occurrence, other, colliding⟩
    cases done : merge queries with
    | error error => exact ⟨error, rfl⟩
    | ok merged => exact (not_colliding_of_merge keyed done occurrence other colliding).elim
  · intro error failed
    obtain ⟨occurrence, other, colliding, same⟩ := exists_colliding_of_merge failed
    have key : occurrence.selection.resultKey = other.selection.resultKey := by
      obtain ⟨_, _, _, _, _, collides⟩ := colliding
      exact collides.key
    refine ⟨occurrence, other, colliding, ?_⟩
    rw [key]
    exact same

def credits : List Query :=
  [.ofSelections [.link (.named "track") (.ofSelections [.field (.named "credits")])],
    .ofSelections [.link (.named "track")
      (.mk [] [.mk none (.ofSelections [.link (.named "credits") .empty])] false)]]

theorem merge_fails_credits :
    (∀ query ∈ credits, query.isKeyed = true) ∧ ∃ error, merge credits = .error error := by
  have keyed : ∀ query ∈ credits, query.isKeyed = true := by decide
  refine ⟨keyed, (merge_fails_iff keyed).1.mpr ?_⟩
  refine ⟨⟨[.link "track"], .field (.named "credits")⟩,
    ⟨[.link "track"], .link (.named "credits") .empty⟩, 1, 3, by decide, rfl, rfl, rfl, rfl, ?_⟩
  exact .inl (by decide)

end Query

end GraphQuery
