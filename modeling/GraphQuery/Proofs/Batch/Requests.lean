import GraphQuery.Proofs.Batch.Fetches
import GraphQuery.Proofs.Query.Merged

/-!
Selections of computed fields and the requests that are made for them: one under each key, for the
field and with the options of the first selection that has the key.
-/

namespace GraphQuery

def Head.firstUnder? (key : String) (fields : List Head) : Option Head :=
  fields.find? fun head => head.resultKey == key

/-! Merging selections of fields -/

namespace Query

variable {fields : List Head}

theorem under_fields (fields : List Head) (key : String) :
    Selection.under key (fields.map .field) =
      (fields.filter fun head => head.resultKey == key).map .field :=
  List.filter_map

abbrev fieldPolicy : MergePolicy Unit MergeError := .plain Slot.join

theorem partsAt_fields (fields : List Head) :
    fieldPolicy.partsAt () [.ofSelections (fields.map .field)] =
      (fields.map Selection.field).map .own := by
  have plain : ∀ query ∈ [Query.ofSelections (fields.map .field)], query.fragments = [] := by
    intro query member
    obtain rfl := List.mem_singleton.mp member
    rfl
  rw [MergePolicy.partsAt_of_plain plain, List.flatMap_singleton]
  rfl

theorem selectionsAt_fields (fields : List Head) :
    fieldPolicy.selectionsAt () [.ofSelections (fields.map .field)] = fields.map .field := by
  rw [MergePolicy.selectionsAt, partsAt_fields, Part.selections_map_own]

/-- Selections of fields do not conflict exactly if merging accepts them. -/
theorem agreeing_fields_iff : Selection.Agreeing (fields.map .field) ↔
    ∃ merged, Query.merge [.ofSelections (fields.map .field)] = .ok merged := by
  constructor
  · intro agreeing
    cases done : Query.merge [.ofSelections (fields.map .field)] with
    | ok merged => exact ⟨merged, rfl⟩
    | error error =>
        cases MergePolicy.fails_of_merge rfl done with
        | clash clashing =>
            rw [selectionsAt_fields] at clashing
            exact (clashing.not_agreeing agreeing).elim
        | below split _ =>
            rw [selectionsAt_fields, under_fields] at split
            obtain ⟨head, _, same⟩ := List.mem_map.mp (split ▸ List.mem_cons_self)
            cases same
        | inside failed =>
            rw [partsAt_fields, Part.queriesOn_map_own, MergePolicy.merge_nil] at failed
            cases failed
  · rintro ⟨merged, done⟩
    have merges : fieldPolicy.Merges () _ merged := MergePolicy.merges_of_merge rfl done
    exact selectionsAt_fields fields ▸ merges.agreeing

theorem first_of_merges {merged : Query}
    (merges : fieldPolicy.Merges () [.ofSelections (fields.map .field)] merged)
    {selection : Selection} (member : selection ∈ merged.selections) : ∃ head rest,
      Head.firstUnder? selection.resultKey fields = some head ∧
      selection = .field (head.joinedTo rest) := by
  have finishes := merges.finishes member
  rw [selectionsAt_fields, under_fields] at finishes
  cases split : fields.filter fun head => head.resultKey == selection.resultKey with
  | nil =>
      rw [split] at finishes
      cases finishes
  | cons head rest =>
      rw [split] at finishes
      have first : Head.firstUnder? selection.resultKey fields = some head := by
        rw [Head.firstUnder?, ← List.head?_filter, split, List.head?_cons]
      generalize selection.resultKey = key at first
      cases finishes with
      | field _ _ => exact ⟨head, _, first, rfl⟩

theorem keys_of_merges {merged : Query}
    (merges : fieldPolicy.Merges () [.ofSelections (fields.map .field)] merged) :
    merged.selections.map Selection.resultKey = (fields.map Head.resultKey).eraseDups := by
  rw [merges.keys_eraseDups, selectionsAt_fields, List.map_map]
  rfl

end Query

namespace Schema

variable {schema : Schema} {node : String} {fields : List Head}

def Computes (schema : Schema) (node : String) (head : Head) : Prop :=
  ∃ field, schema.computed? node head.name = some field ∧
    ∀ option ∈ field.options, option.default? = none →
      ∃ options value, head.options? = some options ∧ options.find? option.name = some value

/-- The request that is made for the selections under a key. -/
inductive RequestFor (schema : Schema) (node : String) (fields : List Head) (key : String) :
    String × FieldRequest → Prop
  | mk {head : Head} {field : ComputedField} : Head.firstUnder? key fields = some head →
      schema.computed? node head.name = some field →
      RequestFor schema node fields key (key, ⟨field, head.options?⟩)

def Requires (schema : Schema) (node : String) (fields : List Head) (path : List String) : Prop :=
  ∃ head ∈ fields, ∃ field, schema.computed? node head.name = some field ∧
    field.requirements.Has path

def RequiresObjects (schema : Schema) (node : String) (fields : List Head) : Prop :=
  ∃ path, path ≠ [] ∧ schema.Requires node fields (thisName :: path)

def RequiresRoot (schema : Schema) (node : String) (fields : List Head) : Prop :=
  ∃ path, path.head? ≠ some thisName ∧ schema.Requires node fields path

theorem exists_requests (agreeing : Selection.Agreeing (fields.map .field))
    (computes : ∀ head ∈ fields, schema.Computes node head) :
    ∃ requests, schema.requestsOf node fields = .ok requests ∧
      List.Forall₂ (schema.RequestFor node fields) (fields.map Head.resultKey).eraseDups
        requests := by
  obtain ⟨merged, done⟩ := Query.agreeing_fields_iff.mp agreeing
  have merges : Query.fieldPolicy.Merges () _ merged := MergePolicy.merges_of_merge rfl done
  have each : ∀ selection ∈ merged.selections, ∃ request,
      schema.request node selection = .ok request ∧
        schema.RequestFor node fields selection.resultKey request := by
    intro selection member
    obtain ⟨head, rest, first, same⟩ := Query.first_of_merges merges member
    obtain ⟨field, named, _⟩ := computes head (List.mem_of_find?_eq_some first)
    refine ⟨_, ?_, .mk first named⟩
    simp [request, same, Selection.name, Selection.head, Selection.options?, named]
  obtain ⟨requests, requested, aligned⟩ := exists_mapM_eq_ok each
  refine ⟨requests, ?_, ?_⟩
  · rw [requestsOf, done]
    exact requested
  · rw [← Query.keys_of_merges merges, List.forall₂_map_left_iff]
    exact aligned

theorem name_of_firstUnder (agreeing : Selection.Agreeing (fields.map .field)) {head first : Head}
    (member : head ∈ fields) (found : Head.firstUnder? head.resultKey fields = some first) :
    first.name = head.name := by
  rw [Head.firstUnder?, ← List.head?_filter, List.head?_eq_some_iff] at found
  obtain ⟨rest, split⟩ := found
  have under : head ∈ first :: rest := split ▸ List.mem_filter.mpr ⟨member, beq_self_eq_true _⟩
  rcases List.mem_cons.mp under with rfl | later
  · rfl
  · have agrees := agreeing head.resultKey (.field first) (rest.map .field)
      (by rw [Query.under_fields, split, List.map_cons]) (.field head) (List.mem_map_of_mem later)
    exact (Head.agrees_iff.mp (Selection.agrees_iff.mp agrees).2).1

section Requested

variable {requests : List (String × FieldRequest)}
  (aligned : List.Forall₂ (schema.RequestFor node fields) (fields.map Head.resultKey).eraseDups
    requests)

include aligned

theorem exists_head {request : FieldRequest} (member : request ∈ requests.map Prod.snd) :
    ∃ head ∈ fields, schema.computed? node head.name = some request.field ∧
      request.options? = head.options? := by
  obtain ⟨pair, inside, rfl⟩ := List.mem_map.mp member
  obtain ⟨key, _, asks⟩ := exists_of_forall₂_right aligned inside
  cases asks with
  | mk first named => exact ⟨_, List.mem_of_find?_eq_some first, named, rfl⟩

theorem requires_iff (agreeing : Selection.Agreeing (fields.map .field)) {path : List String} :
    schema.Requires node fields path ↔
      ∃ request ∈ requests.map Prod.snd, request.field.requirements.Has path := by
  constructor
  · rintro ⟨head, member, field, named, has⟩
    have known : head.resultKey ∈ (fields.map Head.resultKey).eraseDups :=
      List.mem_eraseDups.mpr (List.mem_map_of_mem member)
    obtain ⟨pair, inside, asks⟩ := exists_of_forall₂_left aligned known
    refine ⟨pair.2, List.mem_map_of_mem inside, ?_⟩
    cases asks with
    | mk found namedToo =>
        rw [name_of_firstUnder agreeing member found, named] at namedToo
        obtain rfl := Option.some.inj namedToo
        exact has
  · rintro ⟨request, member, has⟩
    obtain ⟨head, given, named, _⟩ := exists_head aligned member
    exact ⟨head, given, request.field, named, has⟩

theorem requested (built : ∀ field ∈ schema.fields, field.Built)
    (computes : ∀ head ∈ fields, schema.Computes node head) :
    Requested node (requests.map Prod.snd) where
  built request member := by
    obtain ⟨head, _, named, _⟩ := exists_head aligned member
    exact built _ (List.mem_of_find?_eq_some named)
  owned request member := by
    obtain ⟨head, _, named, _⟩ := exists_head aligned member
    have same := List.find?_some named
    simp only [Bool.and_eq_true, beq_iff_eq] at same
    exact same.1
  given request member := by
    obtain ⟨head, inside, named, options⟩ := exists_head aligned member
    obtain ⟨field, namedToo, given⟩ := computes head inside
    obtain rfl := Option.some.inj (named.symm.trans namedToo)
    rw [options]
    exact given

theorem keys_of_aligned :
    requests.map Prod.fst = (fields.map Head.resultKey).eraseDups := by
  rw [eq_comm, ← List.forall₂_eq_eq_eq, List.forall₂_map_right_iff]
  exact aligned.imp fun key request asks => by cases asks; rfl

end Requested

end Schema

end GraphQuery
