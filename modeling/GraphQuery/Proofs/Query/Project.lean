import GraphQuery.Proofs.Query.Selects
import GraphQuery.Query.Project
import Mathlib.Data.List.Induction

/-!
What is left of data by a projection. A query of distinct labels keeps what it selects under each,
and what a smaller query selects is not changed by a larger one before it.
-/

namespace GraphQuery

namespace Entries

variable {α : Type}

theorem ofList_append_singleton (pairs : List (String × α)) (pair : String × α) :
    ofList (pairs ++ [pair]) = (ofList pairs).insert pair.1 pair.2 := by
  simp [ofList]

theorem find?_ofList (pairs : List (String × α)) (key : String) :
    (ofList pairs).find? key = pairs.reverse.lookup key := by
  induction pairs using List.reverseRecOn with
  | nil => rfl
  | append_singleton pairs pair ih =>
      obtain ⟨other, value⟩ := pair
      rw [ofList_append_singleton, find?_insert, List.reverse_append, ih]
      by_cases same : other = key
      · simp [same]
      · have different : (key == other) = false :=
          beq_eq_false_iff_ne.mpr fun equal => same equal.symm
        simp [same, List.lookup_cons, different]

theorem find?_ofList_iff {pairs : List (String × α)} (nodup : (pairs.map Prod.fst).Nodup)
    {key : String} {value : α} : (ofList pairs).find? key = some value ↔ (key, value) ∈ pairs := by
  rw [find?_ofList]
  constructor
  · intro found
    obtain ⟨before, after, split, _⟩ := List.lookup_eq_some_iff.mp found
    rw [← List.mem_reverse, split]
    simp
  · intro member
    have reversed : (keys pairs.reverse).Nodup := by
      simpa [keys, List.map_reverse] using nodup
    exact find?_of_mem reversed (List.mem_reverse.mpr member)

theorem insert_of_fresh {entries : Entries α} {key : String} (fresh : key ∉ entries.keys)
    (value : α) : entries.insert key value = entries ++ [(key, value)] := by
  induction entries with
  | nil => rfl
  | cons entry rest ih =>
      obtain ⟨different, freshToo⟩ := List.ne_and_not_mem_of_not_mem_cons fresh
      rw [insert, if_neg (Ne.symm different), ih freshToo, List.cons_append]

theorem ofList_of_nodup {pairs : List (String × α)} (nodup : (pairs.map Prod.fst).Nodup) :
    ofList pairs = pairs := by
  induction pairs using List.reverseRecOn with
  | nil => rfl
  | append_singleton pairs pair ih =>
      rw [List.map_append, List.nodup_append] at nodup
      have fresh : pair.1 ∉ keys pairs := fun known =>
        nodup.2.2 _ known _ (List.mem_singleton_self _) rfl
      rw [ofList_append_singleton, ih nodup.1, insert_of_fresh fresh]

end Entries

namespace Value

theorem mapObjectsOf_eq_map (change : Entries Value → Value) (items : List Value) :
    mapObjectsOf change items = items.map (mapObjects change) := by
  induction items with
  | nil => rfl
  | cons item rest ih => simp [mapObjectsOf, ih]

mutual

/-- A change before another one is not seen by it if it is not seen on objects. -/
theorem mapObjects_mapObjects {change before : Entries Value → Value}
    (unseen : ∀ entries, mapObjects change (before entries) = change entries) :
    ∀ value : Value, (value.mapObjects before).mapObjects change = value.mapObjects change
  | list items => by
      simp only [mapObjects]
      rw [mapObjectsOf_mapObjectsOf unseen items]
  | object entries => unseen entries
  | null | boolean _ | integer _ | float _ | string _ => rfl

theorem mapObjectsOf_mapObjectsOf {change before : Entries Value → Value}
    (unseen : ∀ entries, mapObjects change (before entries) = change entries) :
    ∀ items : List Value,
      mapObjectsOf change (mapObjectsOf before items) = mapObjectsOf change items
  | [] => rfl
  | item :: rest => by
      simp only [mapObjectsOf]
      rw [mapObjects_mapObjects unseen item, mapObjectsOf_mapObjectsOf unseen rest]

end

end Value

namespace Query

variable {query : Query} {name : String}

def keep (entries : Entries Value) (selection : Selection) : Option (String × Value) :=
  (entries.find? selection.name).map fun value =>
    (selection.resultKey, match selection with
      | .field _ => value
      | .link _ inner => inner.project value)

theorem projectPairs_eq (selections : List Selection) (entries : Entries Value) :
    projectPairs selections entries = selections.filterMap (keep entries) := by
  induction selections with
  | nil => rfl
  | cons selection rest ih =>
      cases selection with
      | field head =>
          cases found : entries.find? head.name with
          | none => simp [projectPairs, keep, Selection.name, Selection.head, found, ih]
          | some value =>
              simp [projectPairs, keep, Selection.name, Selection.head, Selection.resultKey, found,
                ih]
      | link head inner =>
          cases found : entries.find? head.name with
          | none => simp [projectPairs, keep, Selection.name, Selection.head, found, ih]
          | some value =>
              simp [projectPairs, keep, Selection.name, Selection.head, Selection.resultKey, found,
                ih]

theorem project_eq (query : Query) (value : Value) : query.project value =
    value.mapObjects fun entries => .ofPairs (query.selections.filterMap (keep entries)) := by
  obtain ⟨selections, fragments, ordered⟩ := query
  simp only [project, projectPairs_eq, Query.selections]

@[simp] theorem project_list (query : Query) (items : List Value) :
    query.project (.list items) = .list (items.map query.project) := by
  have change : query.project = Value.mapObjects fun entries =>
      .ofPairs (query.selections.filterMap (keep entries)) := funext query.project_eq
  rw [change, Value.mapObjects, Value.mapObjectsOf_eq_map]

theorem project_object (query : Query) (entries : Entries Value) :
    query.project (.object entries) = .ofPairs (query.selections.filterMap (keep entries)) :=
  query.project_eq _

theorem kind_project (query : Query) (value : Value) :
    (query.project value).kind = value.kind := by
  cases value with
  | object entries => rw [project_object]; rfl
  | list items => rw [project_list]; rfl
  | _ => rw [project_eq]; rfl

theorem project_eq_null_iff (query : Query) (value : Value) :
    query.project value = .null ↔ value = .null := by
  have kinds := query.kind_project value
  constructor
  · intro same
    rw [same] at kinds
    cases value with
    | null => rfl
    | _ => simp [Value.kind] at kinds
  · rintro rfl
    rw [project_eq]
    rfl

theorem project_of_no_selections (none : query.selections = []) (entries : Entries Value) :
    query.project (.object entries) = .object [] := by
  rw [project_object, none]
  rfl

theorem keys_keep_sublist (plain : query.Plain) (entries : Entries Value) :
    ((query.selections.filterMap (keep entries)).map Prod.fst).Sublist
      (query.selections.map Selection.name) := by
  have keyed : ∀ selection ∈ query.selections, selection.resultKey = selection.name :=
    fun selection member => plain.resultKey_eq member
  generalize query.selections = selections at keyed
  induction selections with
  | nil => exact List.Sublist.slnil
  | cons selection rest ih =>
      have others := ih fun other member => keyed other (List.mem_cons_of_mem selection member)
      cases kept : keep entries selection with
      | none =>
          rw [List.filterMap_cons_none kept]
          exact others.cons _
      | some pair =>
          have key : pair.1 = selection.name := by
            obtain ⟨value, _, rfl⟩ := Option.map_eq_some_iff.mp kept
            exact keyed selection List.mem_cons_self
          rw [List.filterMap_cons_some kept, List.map_cons, List.map_cons, key]
          exact others.cons_cons _

theorem find?_project (plain : query.Plain) (distinct : query.Distinct) (entries : Entries Value)
    {selection : Selection} (member : selection ∈ query.selections) :
    (query.project (.object entries)).get? selection.name =
      (keep entries selection).map Prod.snd := by
  have nodup : ((query.selections.filterMap (keep entries)).map Prod.fst).Nodup := by
    cases distinct with
    | mk nodup _ => exact (keys_keep_sublist plain entries).nodup nodup
  have looked : (query.project (.object entries)).get? selection.name =
      (Entries.ofList (query.selections.filterMap (keep entries))).find? selection.name := by
    rw [project_object]
    rfl
  rw [looked]
  ext value
  rw [Entries.find?_ofList_iff nodup, List.mem_filterMap]
  simp only [Option.map_eq_some_iff, Prod.exists, exists_eq_right]
  constructor
  · rintro ⟨other, memberOther, kept⟩
    obtain ⟨found, _, made⟩ := Option.map_eq_some_iff.mp kept
    have key : other.resultKey = selection.name := congrArg Prod.fst made
    rw [plain.resultKey_eq memberOther] at key
    obtain rfl := distinct.eq_of_name memberOther member key
    exact ⟨_, kept⟩
  · rintro ⟨key, kept⟩
    obtain ⟨found, _, made⟩ := Option.map_eq_some_iff.mp kept
    have same : selection.resultKey = key := congrArg Prod.fst made
    rw [plain.resultKey_eq member] at same
    exact ⟨selection, member, same ▸ kept⟩

theorem get?_project_field (plain : query.Plain) (distinct : query.Distinct)
    (selects : query.Selects false [name]) (value : Value) :
    (query.project value).get? name = value.get? name := by
  obtain ⟨selection, member, kind, rfl⟩ := selects_single_iff.mp selects
  cases value with
  | object entries =>
      rw [find?_project plain distinct entries member]
      cases selection with
      | field head =>
          simp only [keep, Value.get?, Value.entries?, Option.bind_some, Option.map_map]
          cases Entries.find? entries (Selection.field head).name <;> rfl
      | link head inner => simp [Selection.isLink] at kind
  | list items => rw [project_list]; rfl
  | _ => rw [project_eq]; rfl

theorem get?_project_link (plain : query.Plain) (distinct : query.Distinct)
    (selects : query.Selects true [name]) (value : Value) :
    (query.project value).get? name = (value.get? name).map (query.branch [name]).project := by
  obtain ⟨selection, member, kind, rfl⟩ := selects_single_iff.mp selects
  cases value with
  | object entries =>
      rw [find?_project plain distinct entries member]
      cases selection with
      | field head => simp [Selection.isLink] at kind
      | link head inner =>
          have below : query.link? head.name = some inner :=
            distinct.link?_eq_some_iff.mpr ⟨head, member, rfl⟩
          simp [keep, Value.get?, Value.entries?, branch, below, Selection.name, Selection.head,
            Function.comp_def]
  | list items => rw [project_list]; rfl
  | _ => rw [project_eq]; rfl

def Includes (query part : Query) : Prop :=
  ∀ link path, part.Selects link path → query.Selects link path

/-- A projection does not see that data was projected before onto a query that includes its own. -/
theorem Includes.project_project {part : Query} (includes : query.Includes part)
    (plainPart : part.Plain) (plain : query.Plain) (distinct : query.Distinct) (value : Value) :
    part.project (query.project value) = part.project value := by
  -- below a link of the smaller query, the larger one includes what is selected there
  induction plainPart generalizing query value with
  | @mk selections _ _ ih =>
      have unseen : ∀ entries : Entries Value,
          (ofSelections selections).project (query.project (.object entries)) =
            (ofSelections selections).project (.object entries) := by
        intro entries
        obtain ⟨kept, made⟩ : ∃ kept, query.project (.object entries) = .object kept :=
          ⟨_, query.project_object entries⟩
        rw [made, project_object, project_object]
        congr 1
        refine List.filterMap_congr fun selection member => ?_
        cases selection with
        | field head =>
            have selects := includes false [head.name] (.here member rfl)
            have same := get?_project_field plain distinct selects (.object entries)
            rw [made] at same
            simp only [Value.get?, Value.entries?, Option.bind_some] at same
            simp only [keep, Selection.name, Selection.head, same]
        | link head inner =>
            have selects := includes true [head.name] (.here member rfl)
            have same := get?_project_link plain distinct selects (.object entries)
            rw [made] at same
            simp only [Value.get?, Value.entries?, Option.bind_some] at same
            have below : (query.branch [head.name]).Includes inner := by
              intro link path selectsInner
              have more : path ≠ [] := by
                rintro rfl
                exact not_selects_nil selectsInner
              exact (selects_branch_iff distinct more).mpr
                (includes link _ (.under member selectsInner))
            have again := ih head inner member below (plain.branch _) (distinct.branch _)
            simp only [keep, Selection.name, Selection.head, same, Option.map_map]
            refine Option.map_congr fun found _ => ?_
            simp [again]
      rw [query.project_eq value, (ofSelections selections).project_eq,
        (ofSelections selections).project_eq, Value.mapObjects_mapObjects]
      intro entries
      have step := unseen entries
      rw [query.project_object, (ofSelections selections).project_eq] at step
      rw [step, project_object]

end Query

end GraphQuery
