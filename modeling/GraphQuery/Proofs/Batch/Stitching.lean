import GraphQuery.Proofs.Batch.Requests

/-!
Selections of computed fields, from their merging to the objects that they come to. Every selection
is computed under its own key, for each object and with its own options.
-/

namespace GraphQuery

def Head.optionValue? (head : Head) (option : OptionDef) : Option Value :=
  (head.options?.bind fun options => options.find? option.name).or option.default?

/-- What the first selection under a key comes to for an object: its field, called with the values
of its options in the order of their declaration. -/
def Schema.outcome (schema : Schema) (node : String) (fields : List Head) (context this : Value)
    (key : String) : Option (Except EvalError Value) := do
  let head ← Head.firstUnder? key fields
  let field ← schema.computed? node head.name
  let options ← field.options.mapM head.optionValue?
  some (field.program.call schema.environment this context options)

inductive Fetched {α : Type} (required : Prop) (answer empty : α) : α → Prop
  | asked : required → Fetched required answer empty answer
  | unasked : ¬ required → Fetched required answer empty empty

theorem fetched_ite {α : Type} {required : Prop} {nothing : Bool} (answer empty : α)
    (iff : nothing = false ↔ required) :
    Fetched required answer empty (if nothing then empty else answer) := by
  cases nothing with
  | true => exact .unasked fun needed => by cases iff.mpr needed
  | false => exact .asked (iff.mp rfl)

def Engine.Returns (engine : Engine) (objects : List Value) (context : Value) : EngineCall → Prop
  | .node name ids query => engine.fetchNode name ids query = .ok objects
  | .root query => engine.fetchRoot query = .ok context

inductive FirstFailure (outcome : Value → String → Option (Except EvalError Value))
    (objects : List Value) (keys : List String) (error : EvalError) : Prop
  | mk {before after : List Value} {this : Value} {earlier later : List String} {key : String} :
      objects = before ++ this :: after → keys = earlier ++ key :: later →
      (∀ other ∈ before, ∀ key ∈ keys, ∃ value, outcome other key = some (.ok value)) →
      (∀ other ∈ earlier, ∃ value, outcome this other = some (.ok value)) →
      outcome this key = some (.error error) → FirstFailure outcome objects keys error

/-- A result with the outcomes for each object under its keys, or with the first error. -/
structure Stitched (outcome : Value → String → Option (Except EvalError Value))
    (objects : List Value) (keys : List String)
    (result : Except BatchError (List (Entries Value))) : Prop where
  total : ∀ this, ∀ key ∈ keys, ∃ found, outcome this key = some found
  rows : (∀ this ∈ objects, ∀ key ∈ keys, ∃ value, outcome this key = some (.ok value)) →
    ∃ rows, result = .ok rows ∧ List.Forall₂ (fun this row => row.keys = keys ∧
      ∀ entry ∈ row, outcome this entry.1 = some (.ok entry.2)) objects rows
  error : ∀ this ∈ objects, ∀ key ∈ keys, ∀ error, outcome this key = some (.error error) →
    ∃ first, FirstFailure outcome objects keys first ∧ result = .error (.eval first)

section Rows

variable {outcome : Value → String → Option (Except EvalError Value)} {keys : List String}
  {objects : List Value}

def Reports (outcome : Value → String → Option (Except EvalError Value)) (this : Value)
    (key : String) (result : Except BatchError Value) : Prop :=
  ∃ found, outcome this key = some found ∧ found.mapError .eval = result

theorem reports_ok_iff {this value : Value} {key : String} :
    Reports outcome this key (.ok value) ↔ outcome this key = some (.ok value) := by
  constructor
  · rintro ⟨found, same, reported⟩
    rw [same, mapError_eq_ok_iff.mp reported]
  · exact fun same => ⟨_, same, rfl⟩

theorem reports_error {this : Value} {key : String} {error : BatchError}
    (reports : Reports outcome this key (.error error)) :
    ∃ cause, error = .eval cause ∧ outcome this key = some (.error cause) := by
  obtain ⟨found, same, reported⟩ := reports
  cases found with
  | ok value => cases reported
  | error cause => exact ⟨cause, (Except.error.inj reported).symm, same⟩

theorem exists_value_of_inTurn {this : Value} {values : List Value}
    (turn : InTurn (Reports outcome this) keys (.ok values)) :
    ∀ key ∈ keys, ∃ value, outcome this key = some (.ok value) := by
  intro key member
  cases turn with
  | done aligned =>
      obtain ⟨value, _, reports⟩ := exists_of_forall₂_left aligned member
      exact ⟨value, reports_ok_iff.mp reports⟩

theorem row_of_inTurn (nodup : keys.Nodup) {this : Value} {values : List Value}
    (turn : InTurn (Reports outcome this) keys (.ok values)) :
    Entries.keys (Entries.ofList (keys.zip values)) = keys ∧
      ∀ entry ∈ Entries.ofList (keys.zip values), outcome this entry.1 = some (.ok entry.2) := by
  cases turn with
  | done aligned =>
      have labels : (keys.zip values).map Prod.fst = keys :=
        List.map_fst_zip (Nat.le_of_eq aligned.length_eq)
      rw [Entries.ofList_of_nodup (labels.symm ▸ nodup)]
      exact ⟨labels, fun entry member => reports_ok_iff.mp (List.forall₂_zip aligned member)⟩

theorem stitched_of_inTurn {evaluated : Except BatchError (List (List Value))}
    (total : ∀ this, ∀ key ∈ keys, ∃ found, outcome this key = some found) (nodup : keys.Nodup)
    (turns : InTurn (fun this => InTurn (Reports outcome this) keys) objects evaluated) :
    Stitched outcome objects keys
      (evaluated.map fun rows => rows.map fun values => Entries.ofList (keys.zip values)) := by
  refine ⟨total, fun each => ?_, fun this member key known error found => ?_⟩
  · cases turns with
    | done aligned =>
        refine ⟨_, rfl, List.forall₂_map_right_iff.mpr ?_⟩
        exact aligned.imp fun this values turn => row_of_inTurn nodup turn
    | failed _ here =>
        -- a turn for an object is itself taken in turns for the keys
        cases here with
        | failed _ reports =>
            obtain ⟨cause, _, found⟩ := reports_error reports
            obtain ⟨value, same⟩ := each _ List.mem_append_cons_self _ List.mem_append_cons_self
            cases found.symm.trans same
  · cases turns with
    | done aligned =>
        obtain ⟨values, _, turn⟩ := exists_of_forall₂_left aligned member
        obtain ⟨value, same⟩ := exists_value_of_inTurn turn key known
        cases found.symm.trans same
    | failed earlier here =>
        cases here with
        | failed earlierKeys reports =>
            obtain ⟨cause, rfl, first⟩ := reports_error reports
            refine ⟨cause, .mk rfl rfl (fun other before => ?_) (fun other before => ?_) first, rfl⟩
            · obtain ⟨values, turn⟩ := earlier other before
              exact exists_value_of_inTurn turn
            · obtain ⟨value, reports⟩ := earlierKeys other before
              exact ⟨value, reports_ok_iff.mp reports⟩

end Rows

namespace Plan

variable {plan : Plan} {environment : Environment} {engine : Engine} {ids objects : List Value}
  {context : Value} {requests : List FieldRequest}

theorem fetchObjects_of_returns (counted : objects.length = ids.length)
    (returns : ∀ call ∈ plan.objectCalls ids, engine.Returns objects context call) :
    (plan.fetchObjects engine ids).result =
      .ok (if plan.objectQuery.isEmpty then ids.map fun _ => emptyObject else objects) := by
  simp only [objectCalls] at returns
  rw [fetchObjects]
  split
  · rfl
  · rename_i filled
    rw [if_neg filled] at returns
    have answered : engine.fetchNode plan.owner ids plan.objectQuery = .ok objects :=
      returns _ (List.mem_singleton_self _)
    simp only [answered, Except.mapError, ok_bind, checkCount, counted, if_true]

theorem fetchContext_of_returns
    (returns : ∀ call ∈ plan.rootCalls, engine.Returns objects context call) :
    (plan.fetchContext engine).result =
      .ok (if plan.rootQuery.isEmpty then emptyObject else context) := by
  simp only [rootCalls] at returns
  rw [fetchContext]
  split
  · rfl
  · rename_i filled
    rw [if_neg filled] at returns
    have answered : engine.fetchRoot plan.rootQuery = .ok context :=
      returns _ (List.mem_singleton_self _)
    simp only [answered, Except.mapError]

theorem run_of_returns (counted : objects.length = ids.length)
    (returns : ∀ call ∈ (plan.run environment engine ids).calls,
      engine.Returns objects context call) :
    (plan.run environment engine ids).result = plan.evaluate environment
      (if plan.rootQuery.isEmpty then emptyObject else context)
      (if plan.objectQuery.isEmpty then ids.map fun _ => emptyObject else objects) := by
  rw [calls_run] at returns
  have fetched := fetchObjects_of_returns counted fun call member =>
    returns call (List.mem_append_left _ member)
  rw [fetched] at returns
  have fetchedToo := fetchContext_of_returns fun call member =>
    returns call (List.mem_append_right _ member)
  simp only [run, Logged.bind, fetched, fetchedToo, Logged.silent]

theorem For.objectQuery_filled_iff (made : plan.For requests)
    (plain : ∀ request ∈ requests, request.field.requirements.Plain) :
    plan.objectQuery.isEmpty = false ↔ ∃ path, path ≠ [] ∧
      ∃ request ∈ requests, request.field.requirements.Has (thisName :: path) := by
  have plainObjects : plan.objectQuery.Plain := by
    rw [made.objectQuery, thisBranch_eq]
    exact (merges_requirements plain).plain.branch _
  rw [plainObjects.isEmpty_eq_false_iff, made.objectQuery]
  exact exists_congr fun path => has_thisBranch_iff plain

theorem For.rootQuery_filled_iff (made : plan.For requests)
    (plain : ∀ request ∈ requests, request.field.requirements.Plain) :
    plan.rootQuery.isEmpty = false ↔ ∃ path, path.head? ≠ some thisName ∧
      ∃ request ∈ requests, request.field.requirements.Has path := by
  have plainRoot : plan.rootQuery.Plain :=
    made.rootQuery ▸ (merges_requirements plain).plain.restrict
  rw [plainRoot.isEmpty_eq_false_iff, made.rootQuery]
  exact exists_congr fun path => has_otherBranches_iff plain

end Plan

namespace Schema

variable {schema : Schema} {node : String} {fields : List Head}

theorem RequestFor.outcome_eq {key : String} {request : String × FieldRequest}
    (asks : schema.RequestFor node fields key request) (context this : Value)
    {options : List Value} (valued : request.2.optionValues = .ok options) :
    schema.outcome node fields context this key =
      some (request.2.field.program.call schema.environment this context options) := by
  cases asks with
  | @mk head field first named =>
      have each : ∀ option, (FieldRequest.optionValue ⟨field, head.options?⟩ option).toOption =
          head.optionValue? option := by
        intro option
        simp only [FieldRequest.optionValue, Head.optionValue?]
        cases Option.or _ option.default? <;> rfl
      have given := congrArg Except.toOption valued
      rw [FieldRequest.optionValues, toOption_mapM] at given
      simp only [each] at given
      have known : field.options.mapM head.optionValue? = some options := given
      simp only [outcome, first, named, known, Option.bind_eq_bind, Option.bind_some]

section Requested

variable {requests : List (String × FieldRequest)}
  (aligned : List.Forall₂ (schema.RequestFor node fields) (fields.map Head.resultKey).eraseDups
    requests)

include aligned

theorem outcomes_of_plan {plan : Plan} (made : plan.For (requests.map Prod.snd)) :
    List.Forall₂ (fun key (evaluation : Evaluation) => ∀ context this,
      schema.outcome node fields context this key = some (evaluation.field.program.call
        schema.environment this context evaluation.options))
      (fields.map Head.resultKey).eraseDups plan.evaluations := by
  have valued := made.evaluations
  rw [List.forall₂_map_left_iff] at valued
  refine forall₂_through aligned valued fun key request evaluation asks found context this => ?_
  rw [found.1, asks.outcome_eq context this found.2]

theorem outcome_total (requested : Requested node (requests.map Prod.snd)) {key : String}
    (known : key ∈ (fields.map Head.resultKey).eraseDups) (context this : Value) :
    ∃ found, schema.outcome node fields context this key = some found := by
  obtain ⟨request, member, asks⟩ := exists_of_forall₂_left aligned known
  obtain ⟨options, valued⟩ := requested.optionValues (List.mem_map_of_mem member)
  exact ⟨_, asks.outcome_eq context this valued⟩

theorem compute_of_returns (agreeing : Selection.Agreeing (fields.map .field))
    (requested : Requested node (requests.map Prod.snd)) {engine : Engine}
    {ids objects : List Value} {context : Value} (counted : objects.length = ids.length)
    (returns : ∀ call ∈ (schema.compute engine ids (requests.map Prod.snd)).calls,
      engine.Returns objects context call) : ∃ found root,
    Fetched (schema.RequiresObjects node fields) objects (ids.map fun _ => .object []) found ∧
    Fetched (schema.RequiresRoot node fields) context (.object []) root ∧
    InTurn (fun this => InTurn (Reports (schema.outcome node fields root) this)
      (fields.map Head.resultKey).eraseDups) found
      (schema.compute engine ids (requests.map Prod.snd)).result := by
  have requires := fun path => @requires_iff _ _ _ _ aligned agreeing path
  -- without requests there is no plan, and nothing is asked for
  by_cases begun : requests = []
  · subst begun
    have nothing : ∀ path, ¬ schema.Requires node fields path := by simp [requires]
    refine ⟨_, _, .unasked ?_, .unasked ?_, .done ?_⟩
    · rintro ⟨path, _, needed⟩
      exact nothing _ needed
    · rintro ⟨path, _, needed⟩
      exact nothing _ needed
    · rw [List.forall₂_nil_right_iff.mp aligned, List.forall₂_map_left_iff,
        List.forall₂_map_right_iff]
      exact List.forall₂_same.mpr fun _ _ => .done .nil
  · obtain ⟨plan, planned, rfl, runs⟩ := requested.exists_plan (by simpa using begun)
    have plain : ∀ request ∈ requests.map Prod.snd, request.field.requirements.Plain :=
      fun request member => (requested.built request member).plain
    rw [runs] at returns ⊢
    rw [Plan.run_of_returns counted returns]
    have objectsAsked : plan.objectQuery.isEmpty = false ↔
        schema.RequiresObjects plan.owner fields := by
      rw [planned.objectQuery_filled_iff plain]
      simp only [RequiresObjects, requires]
    have rootAsked : plan.rootQuery.isEmpty = false ↔ schema.RequiresRoot plan.owner fields := by
      rw [planned.rootQuery_filled_iff plain]
      simp only [RequiresRoot, requires]
    refine ⟨_, _, fetched_ite _ _ objectsAsked, fetched_ite _ _ rootAsked, ?_⟩
    refine inTurn_mapM (List.forall₂_same.mpr fun this _ => inTurn_mapM ?_)
    exact (outcomes_of_plan aligned planned).imp fun key evaluation known => ⟨_, known _ this, rfl⟩

end Requested

variable {engine : Engine} {ids objects : List Value} {context : Value}

/--
Computing selected fields gives one row for each id, with the keys of the selections in the order in
which they are first seen. Under a key it has what the field of the first such selection comes to
for the object, with the options of that selection. If something fails, the error is that of the
first object for which anything does, under its first such key.
-/
theorem computeFields_stitched {graph : Graph} {environment : Environment}
    {definitions : List ComputedFieldDef}
    (built : Schema.build graph environment definitions = .ok schema)
    (computes : ∀ head ∈ fields, schema.Computes node head)
    (agreeing : Selection.Agreeing (fields.map .field))
    (counted : objects.length = ids.length)
    (returns : ∀ call ∈ (schema.computeFields engine node ids fields).calls,
      engine.Returns objects context call) : ∃ found root, found.length = ids.length ∧
    Fetched (schema.RequiresObjects node fields) objects (ids.map fun _ => .object []) found ∧
    Fetched (schema.RequiresRoot node fields) context (.object []) root ∧
    Stitched (schema.outcome node fields root) found (fields.map Head.resultKey).eraseDups
      (schema.computeFields engine node ids fields).result := by
  obtain ⟨requests, made, aligned⟩ := exists_requests agreeing computes
  have builtFields : ∀ field ∈ schema.fields, field.Built :=
    fun field member => ⟨_, _, _, _, built, member⟩
  have requested := requested aligned builtFields computes
  simp only [computeFields, made, Logged.map] at returns ⊢
  obtain ⟨found, root, objects, context, turns⟩ :=
    compute_of_returns aligned agreeing requested counted returns
  have length : found.length = ids.length := by
    cases objects with
    | asked _ => exact counted
    | unasked _ => exact List.length_map _
  refine ⟨found, root, length, objects, context, ?_⟩
  rw [keys_of_aligned aligned]
  exact stitched_of_inTurn (fun this key known => outcome_total aligned requested known root this)
    (nodup_eraseDups _) turns

end Schema

def ComputedField.tag : ComputedField where
  node := "Item"
  name := "tag"
  options := [⟨"mark", .string, some (.string "-")⟩, ⟨"count", .integer, none⟩]
  expr := .list [.symbol "mark", .get (.symbol "this") "price", .symbol "count", .symbol "currency"]
  requirements :=
    .ofSelections [.link (.named "this") .price, .field (.named "currency")]
  program := ⟨.list [.slot 1, .get (.slot 0) "price", .slot 2, .context "currency"], 3, 2⟩

def Schema.tagged : Schema where
  graph := .shop
  environment := []
  fields := [.tag]

theorem Schema.build_tagged : Schema.build .shop []
    [⟨"Item", "tag", .expr ComputedField.tag.expr, ComputedField.tag.options⟩] = .ok .tagged := rfl

def Head.tags : List Head :=
  [⟨"tag", some "some", some [("count", .integer 1)], []⟩,
    ⟨"tag", some "more", some [("count", .integer 2), ("mark", .string "+")], []⟩,
    ⟨"tag", some "some", some [("count", .integer 1)], []⟩]

theorem Schema.computeFields_stitched_tags :
    let engine := Engine.ofStored (.always .couponItem)
    let ids := [.integer 1, .integer 2]
    let objects := [.object [("price", .integer 3)], .object [("price", .integer 3)]]
    let context := .object [("currency", .string "EUR")]
    (∀ head ∈ Head.tags, Schema.tagged.Computes "Item" head) ∧
    Selection.Agreeing (Head.tags.map .field) ∧ objects.length = ids.length ∧
    (∀ call ∈ (Schema.tagged.computeFields engine "Item" ids Head.tags).calls,
      engine.Returns objects context call) ∧
    ∃ found root, found.length = ids.length ∧
      Fetched (Schema.tagged.RequiresObjects "Item" Head.tags) objects
        [.object [], .object []] found ∧
      Fetched (Schema.tagged.RequiresRoot "Item" Head.tags) context (.object []) root ∧
      Stitched (Schema.tagged.outcome "Item" Head.tags root) found ["some", "more"]
        (Schema.tagged.computeFields engine "Item" ids Head.tags).result := by
  intro engine ids objects context
  have computes : ∀ head ∈ Head.tags, Schema.tagged.Computes "Item" head := by
    have counted : ∀ head : Head, head.name = "tag" → (∃ options value,
        head.options? = some options ∧ options.find? "count" = some value) →
        Schema.tagged.Computes "Item" head := by
      rintro head named count
      refine ⟨.tag, by rw [named]; rfl, List.forall_mem_cons.mpr ⟨?_, ?_⟩⟩
      · exact fun missing => by cases missing
      · exact List.forall_mem_singleton.mpr fun _ => count
    refine List.forall_mem_cons.mpr ⟨counted _ rfl ⟨_, _, rfl, rfl⟩, List.forall_mem_cons.mpr
      ⟨counted _ rfl ⟨_, _, rfl, rfl⟩, List.forall_mem_singleton.mpr ?_⟩⟩
    exact counted _ rfl ⟨_, _, rfl, rfl⟩
  have agreeing : Selection.Agreeing (Head.tags.map .field) :=
    Query.agreeing_fields_iff.mpr ⟨_, rfl⟩
  have length : objects.length = ids.length := rfl
  have returns : ∀ call ∈ (Schema.tagged.computeFields engine "Item" ids Head.tags).calls,
      engine.Returns objects context call :=
    List.forall_mem_cons.mpr ⟨rfl, List.forall_mem_singleton.mpr rfl⟩
  exact ⟨computes, agreeing, length, returns,
    Schema.computeFields_stitched Schema.build_tagged computes agreeing length returns⟩

end GraphQuery
