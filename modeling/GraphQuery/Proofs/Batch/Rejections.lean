import GraphQuery.Proofs.Batch.Fetches
import GraphQuery.Proofs.Batch.Traced

/-!
Batches that are given up: a rejected batch is given up before anything happens, and one whose
objects the engine refuses before anything else does.
-/

namespace GraphQuery

def BatchError.isRejection : BatchError → Bool
  | unknownField _ _ => true
  | mixedOwners _ _ => true
  | missingOption _ _ => true
  | merge _ => true
  | engine _ => false
  | eval _ => false

inductive Engine.Refuses (engine : Engine) (name : String) (ids : List Value) (query : Query) :
    String → Prop
  | failed {message} : engine.fetchNode name ids query = .error message →
      Refuses engine name ids query message
  | miscounted {objects} : engine.fetchNode name ids query = .ok objects →
      objects.length ≠ ids.length →
      Refuses engine name ids query ("expected " ++ toString ids.length ++ " result(s), got " ++
        toString objects.length)

structure FieldRequest.Lacks (request : FieldRequest) (option : OptionDef) : Prop where
  declared : option ∈ request.field.options
  noDefault : option.default? = none
  notGiven : (request.options?.bind fun options => options.find? option.name) = none

namespace FieldRequest

variable {request : FieldRequest} {requests : List FieldRequest} {error : BatchError}

theorem optionValue_eq_error_iff {option : OptionDef} :
    request.optionValue option = .error error ↔ option.default? = none ∧
      (request.options?.bind fun options => options.find? option.name) = none ∧
      error = .missingOption (fieldPath request.field.node request.field.name) option.name := by
  rw [optionValue]
  cases request.options?.bind fun options => options.find? option.name with
  | some value => simp
  | none =>
      cases option.default? with
      | some value => simp
      | none => simp [eq_comm]

/-- Options are missing exactly if some request lacks one. -/
theorem mapM_optionValues_eq_error_iff :
    (∃ error, requests.mapM optionValues = .error error) ↔
      ∃ request ∈ requests, ∃ option, request.Lacks option := by
  constructor
  · rintro ⟨error, failed⟩
    obtain ⟨request, member, failed⟩ := mapM_eq_error failed
    obtain ⟨option, declared, missing⟩ := mapM_eq_error failed
    obtain ⟨noDefault, notGiven, _⟩ := optionValue_eq_error_iff.mp missing
    exact ⟨request, member, option, declared, noDefault, notGiven⟩
  · rintro ⟨request, member, option, lacks⟩
    cases valued : requests.mapM optionValues with
    | error error => exact ⟨error, rfl⟩
    | ok values =>
        obtain ⟨options, _, given⟩ := exists_of_forall₂_left (mapM_eq_ok_iff.mp valued) member
        obtain ⟨value, _, found⟩ :=
          exists_of_forall₂_left (mapM_eq_ok_iff.mp given) lacks.declared
        have missing := optionValue_eq_error_iff.mpr ⟨lacks.noDefault, lacks.notGiven, rfl⟩
        exact nomatch found.symm.trans missing

theorem missing_of_mapM_optionValues (failed : requests.mapM optionValues = .error error) :
    ∃ path option, error = .missingOption path option := by
  obtain ⟨request, _, failed⟩ := mapM_eq_error failed
  obtain ⟨option, _, missing⟩ := mapM_eq_error failed
  obtain ⟨_, _, rfl⟩ := optionValue_eq_error_iff.mp missing
  exact ⟨_, _, rfl⟩

end FieldRequest

namespace Plan

variable {plan : Plan} {environment : Environment} {engine : Engine} {ids : List Value}
  {first : FieldRequest} {requests : List FieldRequest} {error : BatchError} {message : String}

theorem checkCount_eq_error {objects : List Value}
    (failed : checkCount ids objects = .error error) : ∃ message, error = .engine message := by
  rw [checkCount] at failed
  split at failed
  · cases failed
  · exact ⟨_, (Except.error.inj failed).symm⟩

theorem fetchObjects_eq_error (failed : (plan.fetchObjects engine ids).result = .error error) :
    ∃ message, error = .engine message := by
  rw [fetchObjects] at failed
  split at failed
  · cases failed
  · rcases bind_eq_error failed with refused | ⟨objects, _, counted⟩
    · cases answer : engine.fetchNode plan.owner ids plan.objectQuery with
      | error message =>
          rw [answer] at refused
          exact ⟨message, (Except.error.inj refused).symm⟩
      | ok objects =>
          rw [answer] at refused
          cases refused
    · exact checkCount_eq_error counted

theorem fetchContext_eq_error (failed : (plan.fetchContext engine).result = .error error) :
    ∃ message, error = .engine message := by
  rw [fetchContext] at failed
  split at failed
  · cases failed
  · cases answer : engine.fetchRoot plan.rootQuery with
    | error message =>
        rw [answer] at failed
        exact ⟨message, (Except.error.inj failed).symm⟩
    | ok context =>
        rw [answer] at failed
        cases failed

theorem evaluate_eq_error {context : Value} {objects : List Value}
    (failed : plan.evaluate environment context objects = .error error) :
    ∃ cause, error = .eval cause := by
  obtain ⟨this, _, failed⟩ := mapM_eq_error failed
  obtain ⟨evaluation, _, failed⟩ := mapM_eq_error failed
  rw [Evaluation.run] at failed
  cases ran : evaluation.field.program.call environment this context evaluation.options with
  | error cause =>
      rw [ran] at failed
      exact ⟨cause, (Except.error.inj failed).symm⟩
  | ok value =>
      rw [ran] at failed
      cases failed

/-- What is planned is not rejected any more. -/
theorem not_isRejection_of_run
    (failed : (plan.run environment engine ids).result = .error error) :
    error.isRejection = false := by
  rw [run, Logged.bind] at failed
  split at failed
  · next refused =>
      obtain rfl := Except.error.inj failed
      obtain ⟨message, rfl⟩ := fetchObjects_eq_error refused
      rfl
  · rw [Logged.bind] at failed
    split at failed
    · next refused =>
        obtain rfl := Except.error.inj failed
        obtain ⟨message, rfl⟩ := fetchContext_eq_error refused
        rfl
    · obtain ⟨cause, rfl⟩ := evaluate_eq_error failed
      rfl

theorem fetchObjects_of_refuses {name : String} {asked : List Value} {query : Query}
    (called : .node name asked query ∈ plan.objectCalls ids)
    (refuses : engine.Refuses name asked query message) :
    asked = ids ∧
      plan.fetchObjects engine ids = ⟨.error (.engine message), [.node name ids query]⟩ := by
  rw [objectCalls] at called
  split at called
  · cases called
  · next filled =>
      obtain ⟨rfl, rfl, rfl⟩ := EngineCall.node.inj (List.mem_singleton.mp called)
      refine ⟨rfl, ?_⟩
      rw [fetchObjects, if_neg filled]
      cases refuses with
      | failed answer => simp [answer, Except.mapError]
      | miscounted answer other => simp [answer, Except.mapError, checkCount, other]

theorem node_mem_objectCalls {name : String} {asked : List Value} {query : Query}
    (called : .node name asked query ∈ (plan.run environment engine ids).calls) :
    .node name asked query ∈ plan.objectCalls ids := by
  rw [calls_run, List.mem_append] at called
  refine called.resolve_right fun later => ?_
  split at later
  · cases later
  · rw [rootCalls] at later
    split at later
    · cases later
    · cases List.mem_singleton.mp later

/-! Which error a batch is rejected with -/

theorem ofRequests_eq_mixed_iff :
    (∃ owner other, ofRequests first requests = .error (.mixedOwners owner other)) ↔
      ∃ request ∈ requests, request.field.node ≠ first.field.node := by
  rw [ofRequests]
  cases found : requests.find? fun request => request.field.node != first.field.node with
  | some other =>
      have member := List.mem_of_find?_eq_some found
      have different := List.find?_some found
      simp only [bne_iff_ne] at different
      exact ⟨fun _ => ⟨other, member, different⟩, fun _ => ⟨_, _, rfl⟩⟩
  | none =>
      constructor
      · rintro ⟨owner, other, failed⟩
        rcases bind_eq_error failed with missing | ⟨_, _, made⟩
        · obtain ⟨_, _, same⟩ := FieldRequest.missing_of_mapM_optionValues missing
          cases same
        · cases made
      · rintro ⟨request, member, different⟩
        have same := List.find?_eq_none.mp found request member
        simp [different] at same

theorem ofRequests_eq_missing_iff :
    (∃ path option, ofRequests first requests = .error (.missingOption path option)) ↔
      (∀ request ∈ requests, request.field.node = first.field.node) ∧
        ∃ request ∈ requests, ∃ option, request.Lacks option := by
  rw [← FieldRequest.mapM_optionValues_eq_error_iff, ofRequests]
  cases found : requests.find? fun request => request.field.node != first.field.node with
  | some other =>
      have member := List.mem_of_find?_eq_some found
      have different := List.find?_some found
      simp only [bne_iff_ne] at different
      constructor
      · rintro ⟨_, _, failed⟩
        cases failed
      · rintro ⟨owned, _⟩
        exact (different (owned other member)).elim
  | none =>
      have owned : ∀ request ∈ requests, request.field.node = first.field.node := by
        intro request member
        simpa using List.find?_eq_none.mp found request member
      rw [and_iff_right owned]
      cases valued : requests.mapM FieldRequest.optionValues with
      | ok values => simp
      | error error =>
          obtain ⟨path, option, rfl⟩ := FieldRequest.missing_of_mapM_optionValues valued
          simp

end Plan

/--
How a batch is given up. If it is rejected, nothing has happened. If the engine refuses the objects
that it is asked for, this call is all that has happened: the root is not asked for and no field is
evaluated.
-/
structure Traced.Spares {α : Type} (traced : Traced α) (engine : Engine) (ids : List Value)
    (batch : Logged α) : Prop where
  logged : traced.logged = batch
  rejected : ∀ error, batch.result = .error error → error.isRejection = true →
    batch.calls = [] ∧ traced.steps = []
  refused : ∀ name asked query message, .node name asked query ∈ batch.calls →
    engine.Refuses name asked query message →
    asked = ids ∧ batch.result = .error (.engine message) ∧
      batch.calls = [.node name ids query] ∧ traced.steps = [.call (.node name ids query)]

namespace Traced.Spares

variable {α β : Type} {engine : Engine} {ids : List Value}

theorem silent (result : Except BatchError α) :
    (Traced.silent result).Spares engine ids (.silent result) where
  logged := rfl
  rejected _ _ _ := ⟨rfl, rfl⟩
  refused _ _ _ _ called := nomatch called

theorem map {traced : Traced α} {batch : Logged α} (spares : traced.Spares engine ids batch)
    (change : α → β) : (traced.map change).Spares engine ids (batch.map change) where
  logged := by rw [Traced.logged_map, spares.logged]
  rejected error failed rejection := by
    obtain ⟨result, calls⟩ := batch
    cases result with
    | error cause =>
        obtain rfl := Except.error.inj failed
        exact spares.rejected cause rfl rejection
    | ok value => cases failed
  refused name asked query message called refuses := by
    obtain ⟨same, result, calls, steps⟩ := spares.refused name asked query message called refuses
    exact ⟨same, congrArg (Except.map change) result, calls, steps⟩

end Traced.Spares

theorem Plan.spares (plan : Plan) (environment : Environment) (engine : Engine)
    (ids : List Value) : (plan.trace environment engine ids).Spares engine ids
      (plan.run environment engine ids) where
  logged := plan.logged_trace environment engine ids
  rejected error failed rejection := by
    rw [not_isRejection_of_run failed] at rejection
    cases rejection
  refused name asked query message called refuses := by
    obtain ⟨same, fetched⟩ := fetchObjects_of_refuses (node_mem_objectCalls called) refuses
    refine ⟨same, ?_, ?_, ?_⟩
    · simp [run, fetched, Logged.bind]
    · simp [run, fetched, Logged.bind]
    · simp [trace, fetched, Traced.bind, Traced.ofLogged]

namespace Schema

variable (schema : Schema) (engine : Engine) (ids : List Value)

theorem spares_compute (requests : List FieldRequest) :
    (schema.trace engine ids requests).Spares engine ids
      (schema.compute engine ids requests) := by
  cases requests with
  | nil => exact .silent _
  | cons first rest =>
      simp only [trace, compute]
      cases Plan.ofRequests first (first :: rest) with
      | error error => exact .silent _
      | ok plan => exact plan.spares schema.environment engine ids

theorem spares_computeFields (node : String) (fields : List Head) :
    (schema.traceFields engine node ids fields).Spares engine ids
      (schema.computeFields engine node ids fields) := by
  simp only [traceFields, computeFields]
  cases schema.requestsOf node fields with
  | error error => exact .silent _
  | ok requests => exact (schema.spares_compute engine ids _).map _

variable {schema engine ids} {requests : List FieldRequest}

/-- A batch is rejected for its requests exactly as its plan is. -/
theorem compute_eq_rejection_iff (error : BatchError) (rejection : error.isRejection = true) :
    (schema.compute engine ids requests).result = .error error ↔
      ∃ first ∈ requests.head?, Plan.ofRequests first requests = .error error := by
  cases requests with
  | nil => simp [compute, Logged.silent]
  | cons first rest =>
      simp only [compute, List.head?_cons, Option.mem_some_iff, exists_eq_left']
      cases planned : Plan.ofRequests first (first :: rest) with
      | error cause => simp [Logged.silent]
      | ok plan =>
          simp only [reduceCtorEq, iff_false]
          intro failed
          rw [Plan.not_isRejection_of_run failed] at rejection
          cases rejection

theorem compute_mixed_iff :
    (∃ owner other,
        (schema.compute engine ids requests).result = .error (.mixedOwners owner other)) ↔
      ∃ first ∈ requests.head?, ∃ request ∈ requests, request.field.node ≠ first.field.node := by
  simp only [compute_eq_rejection_iff (.mixedOwners _ _) rfl]
  cases requests with
  | nil => simp
  | cons first rest =>
      simp only [List.head?_cons, Option.mem_some_iff, exists_eq_left']
      exact Plan.ofRequests_eq_mixed_iff

theorem compute_missing_iff :
    (∃ path option,
        (schema.compute engine ids requests).result = .error (.missingOption path option)) ↔
      (∀ first ∈ requests.head?, ∀ request ∈ requests, request.field.node = first.field.node) ∧
        ∃ request ∈ requests, ∃ option, request.Lacks option := by
  simp only [compute_eq_rejection_iff (.missingOption _ _) rfl]
  cases requests with
  | nil => simp
  | cons first rest =>
      simp only [List.head?_cons, Option.mem_some_iff, exists_eq_left', forall_eq']
      exact Plan.ofRequests_eq_missing_iff

/-! Selections -/

variable {node : String} {fields : List Head} {named : List (String × FieldRequest)}

theorem requestsOf_eq_error {error : BatchError}
    (failed : schema.requestsOf node fields = .error error) :
    (∃ cause, error = .merge cause) ∨ ∃ name, error = .unknownField node name := by
  rcases bind_eq_error failed with conflict | ⟨merged, _, unknown⟩
  · cases done : Query.merge [.ofSelections (fields.map .field)] with
    | error cause =>
        rw [done] at conflict
        exact .inl ⟨cause, (Except.error.inj conflict).symm⟩
    | ok merged =>
        rw [done] at conflict
        cases conflict
  · obtain ⟨selection, _, missing⟩ := mapM_eq_error unknown
    rw [request] at missing
    split at missing
    · cases missing
    · exact .inr ⟨_, (Except.error.inj missing).symm⟩

theorem owner_of_requestsOf (made : schema.requestsOf node fields = .ok named) :
    ∀ request ∈ named.map Prod.snd, request.field.node = node := by
  obtain ⟨merged, _, requested⟩ := bind_eq_ok_iff.mp made
  refine List.forall_mem_map.mpr fun pair member => ?_
  obtain ⟨selection, _, found⟩ :=
    exists_of_forall₂_right (mapM_eq_ok_iff.mp requested) member
  rw [request] at found
  split at found
  · next field known =>
      obtain rfl := Except.ok.inj found
      have same := List.find?_some known
      simp only [Bool.and_eq_true, beq_iff_eq] at same
      exact same.1
  · cases found

theorem computeFields_eq_error_iff {error : BatchError}
    (made : schema.requestsOf node fields = .ok named) :
    (schema.computeFields engine node ids fields).result = .error error ↔
      (schema.compute engine ids (named.map Prod.snd)).result = .error error := by
  simp only [computeFields, made, Logged.map]
  cases (schema.compute engine ids (named.map Prod.snd)).result with
  | error cause => simp [Except.map]
  | ok rows => simp [Except.map]

theorem computeFields_not_mixed (owner other : String) :
    (schema.computeFields engine node ids fields).result ≠ .error (.mixedOwners owner other) := by
  intro failed
  cases made : schema.requestsOf node fields with
  | error error =>
      simp only [computeFields, made, Logged.silent, Except.error.injEq] at failed
      subst failed
      rcases requestsOf_eq_error made with ⟨_, same⟩ | ⟨_, same⟩ <;> cases same
  | ok named =>
      have owned := owner_of_requestsOf made
      obtain ⟨first, head, request, member, different⟩ :=
        compute_mixed_iff.mp ⟨owner, other, (computeFields_eq_error_iff made).mp failed⟩
      have inside := List.mem_of_mem_head? head
      exact different ((owned request member).trans (owned first inside).symm)

theorem computeFields_missing_iff :
    (∃ path option, (schema.computeFields engine node ids fields).result =
        .error (.missingOption path option)) ↔
      ∃ named, schema.requestsOf node fields = .ok named ∧
        ∃ request ∈ named.map Prod.snd, ∃ option, request.Lacks option := by
  cases made : schema.requestsOf node fields with
  | error error =>
      constructor
      · rintro ⟨path, option, failed⟩
        simp only [computeFields, made, Logged.silent, Except.error.injEq] at failed
        subst failed
        rcases requestsOf_eq_error made with ⟨_, same⟩ | ⟨_, same⟩ <;> cases same
      · rintro ⟨named, done, _⟩
        cases done
  | ok named =>
      have owned := owner_of_requestsOf made
      have agreed : ∀ first ∈ (named.map Prod.snd).head?, ∀ request ∈ named.map Prod.snd,
          request.field.node = first.field.node := fun first head request member =>
        (owned request member).trans (owned first (List.mem_of_mem_head? head)).symm
      simp only [computeFields_eq_error_iff made, compute_missing_iff, and_iff_right agreed,
        Except.ok.injEq, exists_eq_left']

end Schema

/--
Rejected requests do not touch the engine, whatever is requested of whichever schema. Requests are
rejected for their owners exactly if one of them has another owner than the first, and for options
exactly if they have one owner and one of them lacks an option; selections are never rejected for
their owners, and for options exactly if a request that is made of them lacks one.
-/
theorem Schema.rejections_spare_engine (schema : Schema) (engine : Engine) (ids : List Value) :
    (∀ requests,
      (schema.trace engine ids requests).Spares engine ids
        (schema.compute engine ids requests) ∧
      ((∃ owner other,
          (schema.compute engine ids requests).result = .error (.mixedOwners owner other)) ↔
        ∃ first ∈ requests.head?, ∃ request ∈ requests,
          request.field.node ≠ first.field.node) ∧
      ((∃ path option,
          (schema.compute engine ids requests).result = .error (.missingOption path option)) ↔
        (∀ first ∈ requests.head?, ∀ request ∈ requests,
          request.field.node = first.field.node) ∧
        ∃ request ∈ requests, ∃ option, request.Lacks option)) ∧
    ∀ node fields,
      (schema.traceFields engine node ids fields).Spares engine ids
        (schema.computeFields engine node ids fields) ∧
      (∀ owner other, (schema.computeFields engine node ids fields).result ≠
        .error (.mixedOwners owner other)) ∧
      ((∃ path option, (schema.computeFields engine node ids fields).result =
          .error (.missingOption path option)) ↔
        ∃ named, schema.requestsOf node fields = .ok named ∧
          ∃ request ∈ named.map Prod.snd, ∃ option, request.Lacks option) := by
  refine ⟨fun requests => ⟨?_, compute_mixed_iff, compute_missing_iff⟩, fun node fields => ?_⟩
  · exact schema.spares_compute engine ids requests
  · exact ⟨schema.spares_computeFields engine ids node fields, computeFields_not_mixed,
      computeFields_missing_iff⟩

def Engine.offline : Engine := ⟨fun _ _ _ => .error "offline", fun _ => .ok .null⟩

theorem Schema.rejections_spare_engine_offline :
    (Schema.labelled.compute .offline [.integer 1] [⟨.label, none⟩]).result =
      .error (.engine "offline") ∧
    (Schema.labelled.trace .offline [.integer 1] [⟨.label, none⟩]).steps =
      [.call (.node "Item" [.integer 1] .price)] ∧
    ∃ owner other, (Schema.labelled.compute .offline [.integer 1]
      [⟨.label, none⟩, ⟨{ ComputedField.label with node := "Coupon" }, none⟩]).result =
        .error (.mixedOwners owner other) := by
  obtain ⟨requested, _⟩ := Schema.rejections_spare_engine .labelled .offline [.integer 1]
  have called : .node "Item" [.integer 1] .price ∈
      (Schema.labelled.compute .offline [.integer 1] [⟨.label, none⟩]).calls := .head _
  obtain ⟨_, result, _, steps⟩ := (requested _).1.refused _ _ _ _ called (.failed rfl)
  have mixed := (requested [⟨.label, none⟩, ⟨{ ComputedField.label with node := "Coupon" },
    none⟩]).2.1.mpr ⟨_, rfl, _, .tail _ (.head _), by decide⟩
  exact ⟨result, steps, mixed⟩

end GraphQuery
