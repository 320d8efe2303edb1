import GraphQuery.Proofs.Batch.Independence
import GraphQuery.Proofs.Query.Union

/-!
What a batch asks the engine for: one query about its objects and one about the graph root, which
hold the paths that its fields require and no others, and nothing where no path is required.
-/

namespace GraphQuery

namespace Query

theorem Plain.isEmpty_eq_false_iff {query : Query} (plain : query.Plain) :
    query.isEmpty = false ↔ ∃ path, query.Has path := by
  constructor
  · intro filled
    simp only [isEmpty, plain.fragments_eq, List.isEmpty_nil, Bool.and_true] at filled
    obtain ⟨selection, rest, same⟩ :=
      List.exists_cons_of_ne_nil (List.isEmpty_eq_false_iff.mp filled)
    exact ⟨_, has_single_iff.mpr ⟨selection, same ▸ List.mem_cons_self, rfl⟩⟩
  · rintro ⟨path, link, selects⟩
    refine Bool.eq_false_iff.mpr fun nothing => ?_
    exact not_selects_of_isEmpty nothing selects

end Query

def Engine.Answers (engine : Engine) : EngineCall → Prop
  | .node name ids query => ∃ objects, engine.fetchNode name ids query = .ok objects ∧
      objects.length = ids.length
  | .root query => ∃ context, engine.fetchRoot query = .ok context

theorem Logged.calls_bind {α β : Type} (logged : Logged α) (next : α → Logged β) :
    (logged.bind next).calls = logged.calls ++
      match logged.result with
      | .error _ => []
      | .ok value => (next value).calls := by
  obtain ⟨outcome, calls⟩ := logged
  cases outcome with
  | error error => simp [Logged.bind]
  | ok value => rfl

namespace Plan

variable {plan : Plan} {environment : Environment} {engine : Engine} {ids : List Value}
  {requests : List FieldRequest} {path : List String}

def objectCalls (plan : Plan) (ids : List Value) : List EngineCall :=
  if plan.objectQuery.isEmpty then [] else [.node plan.owner ids plan.objectQuery]

def rootCalls (plan : Plan) : List EngineCall :=
  if plan.rootQuery.isEmpty then [] else [.root plan.rootQuery]

theorem calls_fetchObjects : (plan.fetchObjects engine ids).calls = plan.objectCalls ids := by
  simp only [fetchObjects, objectCalls]
  split <;> rfl

theorem calls_fetchContext : (plan.fetchContext engine).calls = plan.rootCalls := by
  simp only [fetchContext, rootCalls]
  split <;> rfl

/-- The root is asked for only after the objects are there. -/
theorem calls_run : (plan.run environment engine ids).calls = plan.objectCalls ids ++
    match (plan.fetchObjects engine ids).result with
    | .error _ => []
    | .ok _ => plan.rootCalls := by
  rw [run, Logged.calls_bind, calls_fetchObjects]
  cases (plan.fetchObjects engine ids).result with
  | error error => rfl
  | ok objects =>
      simp only [Logged.calls_bind, calls_fetchContext, Logged.silent]
      cases (plan.fetchContext engine).result <;> simp

theorem calls_run_sublist : (plan.run environment engine ids).calls.Sublist
    [.node plan.owner ids plan.objectQuery, .root plan.rootQuery] := by
  have objects : (plan.objectCalls ids).Sublist [.node plan.owner ids plan.objectQuery] := by
    rw [objectCalls]
    split <;> simp
  have root : plan.rootCalls.Sublist [.root plan.rootQuery] := by
    rw [rootCalls]
    split <;> simp
  rw [calls_run]
  refine objects.append ?_
  cases (plan.fetchObjects engine ids).result with
  | error error => exact List.nil_sublist _
  | ok objects => exact root

theorem fetchObjects_of_answers
    (answers : ∀ call ∈ plan.objectCalls ids, engine.Answers call) :
    ∃ objects, (plan.fetchObjects engine ids).result = .ok objects := by
  simp only [objectCalls] at answers
  rw [fetchObjects]
  split
  · exact ⟨_, rfl⟩
  · rename_i filled
    rw [if_neg filled] at answers
    obtain ⟨objects, answered, counted⟩ := answers _ (List.mem_singleton_self _)
    refine ⟨objects, ?_⟩
    simp only [answered, Except.mapError, ok_bind, checkCount, counted, if_true]

theorem calls_run_of_answers
    (answers : ∀ call ∈ (plan.run environment engine ids).calls, engine.Answers call) :
    (plan.run environment engine ids).calls = plan.objectCalls ids ++ plan.rootCalls := by
  have asked : ∀ call ∈ plan.objectCalls ids, engine.Answers call := by
    intro call member
    exact answers call (calls_run ▸ List.mem_append_left _ member)
  obtain ⟨objects, fetched⟩ := fetchObjects_of_answers asked
  rw [calls_run, fetched]

/-! What is asked for -/

theorem has_objectLink_iff : objectLink.Has path ↔ path = [thisName] := by
  constructor
  · rintro ⟨link, selects⟩
    exact eq_of_selects_objectLink selects
  · rintro rfl
    exact Query.has_single_iff.mpr ⟨_, List.mem_singleton_self _, rfl⟩

section Required

variable (plain : ∀ request ∈ requests, request.field.requirements.Plain)

include plain

theorem has_requirements_iff : (Plan.requirements requests).Has path ↔
    path = [thisName] ∨ ∃ request ∈ requests, request.field.requirements.Has path := by
  rw [(merges_requirements plain).has_iff]
  rw [List.exists_mem_cons_iff, has_objectLink_iff]
  simp

theorem has_thisBranch_iff : (thisBranch (Plan.requirements requests)).Has path ↔
    path ≠ [] ∧ ∃ request ∈ requests, request.field.requirements.Has (thisName :: path) := by
  have distinct := (merges_requirements plain).distinct
  by_cases more : path = []
  · subst more
    simp [Query.Has, Query.not_selects_nil]
  · have whole : ((Plan.requirements requests).branch [thisName]).Has path ↔
        (Plan.requirements requests).Has (thisName :: path) :=
      exists_congr fun link => Query.selects_branch_iff distinct more
    rw [thisBranch_eq, whole, has_requirements_iff plain]
    simp [more]

/-- The object is always a link of what is required, so nothing of it is left for the root. -/
theorem not_has_this_otherBranches :
    ¬ (otherBranches (Plan.requirements requests)).Has (thisName :: path) := by
  have merges := merges_requirements plain
  have linked : (Plan.requirements requests).Selects true [thisName] :=
    (merges.links _).mpr ⟨objectLink, List.mem_cons_self,
      Query.selects_single_iff.mpr ⟨_, List.mem_singleton_self _, rfl, rfl⟩⟩
  obtain ⟨object, member, isLink, named⟩ := Query.selects_single_iff.mp linked
  rintro ⟨link, selects⟩
  have gone : ∀ selection ∈ (otherBranches (Plan.requirements requests)).selections,
      selection.name ≠ thisName := by
    intro selection kept same
    obtain ⟨inside, other⟩ := List.mem_filter.mp kept
    obtain rfl := merges.distinct.eq_of_name inside member (same.trans named.symm)
    simp [isLink, named] at other
  generalize whole : thisName :: path = sought at selects
  cases selects with
  | here kept _ => exact gone _ kept (List.cons.inj whole).1.symm
  | under kept _ => exact gone _ kept (List.cons.inj whole).1.symm

theorem has_otherBranches_iff : (otherBranches (Plan.requirements requests)).Has path ↔
    path.head? ≠ some thisName ∧
      ∃ request ∈ requests, request.field.requirements.Has path := by
  cases path with
  | nil => simp [Query.Has, Query.not_selects_nil]
  | cons name path =>
      by_cases same : name = thisName
      · subst same
        simp [not_has_this_otherBranches plain]
      · have whole : (otherBranches (Plan.requirements requests)).Has (name :: path) ↔
            (Plan.requirements requests).Has (name :: path) :=
          exists_congr fun link => selects_otherBranches_iff same
        rw [whole, has_requirements_iff plain]
        simp [same]

end Required

end Plan

def ComputedField.Built (field : ComputedField) : Prop :=
  ∃ graph environment definitions schema,
    Schema.build graph environment definitions = .ok schema ∧ field ∈ schema.fields

theorem ComputedField.Built.plain {field : ComputedField} (built : field.Built) :
    field.requirements.Plain := by
  obtain ⟨graph, environment, definitions, schema, built, member⟩ := built
  obtain ⟨_, _, fields⟩ := Schema.build_ok built
  obtain ⟨checked, defined⟩ := fields field member
  exact defined.plain

structure Requested (owner : String) (requests : List FieldRequest) : Prop where
  built : ∀ request ∈ requests, request.field.Built
  owned : ∀ request ∈ requests, request.field.node = owner
  given : ∀ request ∈ requests, ∀ option ∈ request.field.options, option.default? = none →
    ∃ options value, request.options? = some options ∧ options.find? option.name = some value

namespace Requested

variable {owner : String} {requests : List FieldRequest}

theorem optionValues (requested : Requested owner requests) {request : FieldRequest}
    (member : request ∈ requests) : ∃ values, request.optionValues = .ok values := by
  have each : ∀ option ∈ request.field.options, ∃ value,
      request.optionValue option = .ok value ∧ True := by
    intro option declared
    cases default : option.default? with
    | some value =>
        simp only [FieldRequest.optionValue, default]
        cases request.options?.bind fun options => options.find? option.name <;> simp
    | none =>
        obtain ⟨options, value, same, found⟩ :=
          requested.given request member option declared default
        exact ⟨value, by simp [FieldRequest.optionValue, same, found], trivial⟩
  obtain ⟨values, valued, _⟩ := exists_mapM_eq_ok each
  exact ⟨values, valued⟩

/-- Such requests are always planned, and what is planned is run. -/
theorem exists_plan (requested : Requested owner requests) (begun : requests ≠ []) :
    ∃ plan : Plan, plan.For requests ∧ plan.owner = owner ∧ ∀ (schema : Schema) engine ids,
      schema.compute engine ids requests = plan.run schema.environment engine ids := by
  obtain ⟨first, rest, rfl⟩ := List.exists_cons_of_ne_nil begun
  have same := requested.owned first List.mem_cons_self
  have unmixed : (first :: rest).find? (fun request => request.field.node != first.field.node) =
      none := by
    refine List.find?_eq_none.mpr fun request member => ?_
    simp [requested.owned request member, same]
  have each : ∀ request ∈ first :: rest, ∃ values, request.optionValues = .ok values ∧ True :=
    fun request member => (requested.optionValues member).imp fun values valued => ⟨valued, trivial⟩
  obtain ⟨options, valued, _⟩ := exists_mapM_eq_ok each
  cases planned : Plan.ofRequests first (first :: rest) with
  | error error => simp [Plan.ofRequests, unmixed, valued] at planned
  | ok plan =>
      have made := Plan.ofRequests_ok planned
      refine ⟨plan, made, (made.owner first List.mem_cons_self).symm.trans same, ?_⟩
      intro schema engine ids
      simp only [Schema.compute, planned]

end Requested

/--
A batch is one fetch: the objects are asked for at most once, under the owner's name and for all
ids, and so is the graph root, whichever requests there are. Each query holds the paths that some
field requires there, every label once on its level, and an engine that answers is called for every
query that holds a path.
-/
theorem Schema.compute_fetches {owner : String} {requests : List FieldRequest}
    (requested : Requested owner requests) (begun : requests ≠ []) (schema : Schema)
    (engine : Engine) (ids : List Value) : ∃ objectQuery rootQuery : Query,
      (schema.compute engine ids requests).calls.Sublist
        [.node owner ids objectQuery, .root rootQuery] ∧
      (∀ path, objectQuery.Has path ↔ path ≠ [] ∧
        ∃ request ∈ requests, request.field.requirements.Has (thisName :: path)) ∧
      (∀ path, rootQuery.Has path ↔ path.head? ≠ some thisName ∧
        ∃ request ∈ requests, request.field.requirements.Has path) ∧
      objectQuery.Distinct ∧ rootQuery.Distinct ∧
      ((∀ call ∈ (schema.compute engine ids requests).calls, engine.Answers call) →
        (.node owner ids objectQuery ∈ (schema.compute engine ids requests).calls ↔
          ∃ path, objectQuery.Has path) ∧
        (.root rootQuery ∈ (schema.compute engine ids requests).calls ↔
          ∃ path, rootQuery.Has path)) := by
  obtain ⟨plan, made, rfl, computes⟩ := requested.exists_plan begun
  have plain : ∀ request ∈ requests, request.field.requirements.Plain :=
    fun request member => (requested.built request member).plain
  have merges := Plan.merges_requirements plain
  have plainObjects : plan.objectQuery.Plain := by
    rw [made.objectQuery, Plan.thisBranch_eq]
    exact merges.plain.branch _
  have plainRoot : plan.rootQuery.Plain := made.rootQuery ▸ merges.plain.restrict
  rw [computes]
  refine ⟨plan.objectQuery, plan.rootQuery, Plan.calls_run_sublist, ?_, ?_, ?_, ?_, ?_⟩
  · exact fun path => made.objectQuery ▸ Plan.has_thisBranch_iff plain
  · exact fun path => made.rootQuery ▸ Plan.has_otherBranches_iff plain
  · rw [made.objectQuery, Plan.thisBranch_eq]
    exact merges.distinct.branch _
  · exact made.rootQuery ▸ merges.distinct.restrict
  · intro answers
    rw [Plan.calls_run_of_answers answers, ← plainObjects.isEmpty_eq_false_iff,
      ← plainRoot.isEmpty_eq_false_iff]
    simp only [Plan.objectCalls, Plan.rootCalls]
    cases plan.objectQuery.isEmpty <;> cases plan.rootQuery.isEmpty <;> simp

def Expr.label : Expr := .list [.get (.symbol "this") "price", .symbol "currency"]

def ComputedField.label : ComputedField where
  node := "Item"
  name := "label"
  options := []
  expr := .label
  requirements :=
    .ofSelections [.link (.named "this") .price, .field (.named "currency")]
  program := ⟨.list [.get (.slot 0) "price", .context "currency"], 1, 0⟩

def Schema.labelled : Schema where
  graph := .shop
  environment := []
  fields := [.label, .discount]

theorem Schema.build_labelled : Schema.build .shop []
    [.ofItem "label" .label, .ofItem "discount" .discount] = .ok .labelled := rfl

theorem requested_labelled : Requested "Item" [⟨.label, none⟩, ⟨.discount, none⟩] := by
  have built : ∀ field ∈ Schema.labelled.fields, field.Built :=
    fun field member => ⟨_, _, _, _, Schema.build_labelled, member⟩
  refine ⟨?_, ?_, ?_⟩ <;> simp only [List.forall_mem_cons]
  · exact ⟨built _ (.head _), built _ (.tail _ (.head _)), by simp⟩
  · exact ⟨rfl, rfl, by simp⟩
  · simp [ComputedField.label, ComputedField.discount]

theorem Schema.compute_fetches_labelled :
    Requested "Item" [⟨.label, none⟩, ⟨.discount, none⟩] ∧
    (∀ call ∈ (Schema.labelled.compute (.ofStored (.always .couponItem)) [.integer 1]
      [⟨.label, none⟩, ⟨.discount, none⟩]).calls,
        (Engine.ofStored (.always .couponItem)).Answers call) ∧
    ∃ objectQuery rootQuery : Query, objectQuery.Has ["price"] ∧
      objectQuery.Has ["coupon", "discount"] ∧ rootQuery.Has ["currency"] ∧
      ∀ call ∈ [EngineCall.node "Item" [.integer 1] objectQuery, .root rootQuery],
        call ∈ (Schema.labelled.compute (.ofStored (.always .couponItem)) [.integer 1]
          [⟨.label, none⟩, ⟨.discount, none⟩]).calls := by
  have answers : ∀ call ∈ (Schema.labelled.compute (.ofStored (.always .couponItem)) [.integer 1]
      [⟨.label, none⟩, ⟨.discount, none⟩]).calls,
        (Engine.ofStored (.always .couponItem)).Answers call :=
    List.forall_mem_cons.mpr ⟨⟨_, rfl, rfl⟩, List.forall_mem_singleton.mpr ⟨_, rfl⟩⟩
  obtain ⟨objectQuery, rootQuery, _, objects, root, _, _, asked⟩ :=
    Schema.compute_fetches requested_labelled (by simp) .labelled
      (.ofStored (.always .couponItem)) [.integer 1]
  have price : objectQuery.Has ["price"] :=
    (objects _).mpr ⟨by simp, _, .head _, .under (.head _) (.single (.head _))⟩
  have discount : objectQuery.Has ["coupon", "discount"] :=
    (objects _).mpr ⟨by simp, _, .tail _ (.head _),
      .under (.head _) (.under (.head _) (.single (.head _)))⟩
  have currency : rootQuery.Has ["currency"] :=
    (root _).mpr ⟨by decide, _, .head _, .single (.tail _ (.head _))⟩
  exact ⟨requested_labelled, answers, objectQuery, rootQuery, price, discount, currency,
    List.forall_mem_cons.mpr ⟨(asked answers).1.mpr ⟨_, price⟩,
      List.forall_mem_singleton.mpr ((asked answers).2.mpr ⟨_, currency⟩)⟩⟩

end GraphQuery
