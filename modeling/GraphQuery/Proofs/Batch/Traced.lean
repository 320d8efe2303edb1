import GraphQuery.Proofs.Batch.Plan

/-!
What happens in a batch, step by step: calls of the engine and evaluations of fields. Without its
evaluations a traced batch is the batch itself, and where it succeeds its evaluations are one for
each object and field.
-/

namespace GraphQuery

inductive BatchStep where
  | call (made : EngineCall)
  | evaluation (field : ComputedField) (this : Value)

def BatchStep.call? : BatchStep → Option EngineCall
  | call made => some made
  | evaluation _ _ => none

structure Traced (α : Type) where
  result : Except BatchError α
  steps : List BatchStep

namespace Traced

variable {α β : Type}

def silent (result : Except BatchError α) : Traced α := ⟨result, []⟩

def ofLogged (logged : Logged α) : Traced α := ⟨logged.result, logged.calls.map .call⟩

def bind (traced : Traced α) (next : α → Traced β) : Traced β :=
  match traced.result with
  | .error error => ⟨.error error, traced.steps⟩
  | .ok value => ⟨(next value).result, traced.steps ++ (next value).steps⟩

def map (change : α → β) (traced : Traced α) : Traced β :=
  ⟨traced.result.map change, traced.steps⟩

def mapM (change : α → Traced β) : List α → Traced (List β)
  | [] => silent (.ok [])
  | item :: rest =>
      (change item).bind fun value =>
        (mapM change rest).bind fun values => silent (.ok (value :: values))

def logged (traced : Traced α) : Logged α :=
  ⟨traced.result, traced.steps.filterMap BatchStep.call?⟩

theorem logged_ofLogged (logged : Logged α) : (ofLogged logged).logged = logged := by
  have calls : (logged.calls.map BatchStep.call).filterMap BatchStep.call? = logged.calls := by
    rw [List.filterMap_map]
    exact List.filterMap_some
  simp only [ofLogged, Traced.logged, calls]

theorem logged_bind (traced : Traced α) (next : α → Traced β) :
    (traced.bind next).logged = traced.logged.bind fun value => (next value).logged := by
  obtain ⟨result, steps⟩ := traced
  cases result with
  | error error => rfl
  | ok value => simp [bind, logged, Logged.bind]

theorem logged_map (change : α → β) (traced : Traced α) :
    (traced.map change).logged = traced.logged.map change := rfl

/-- Where no item calls the engine, the steps without evaluations are none. -/
theorem logged_mapM {change : α → Traced β} {run : α → Except BatchError β}
    (each : ∀ item, (change item).logged = .silent (run item)) (items : List α) :
    (mapM change items).logged = .silent (items.mapM run) := by
  induction items with
  | nil => rfl
  | cons item rest ih =>
      rw [mapM, logged_bind, each, List.mapM_cons]
      cases run item with
      | error error => rfl
      | ok value =>
          simp only [Logged.silent, Logged.bind, List.nil_append, logged_bind, ih, ok_bind]
          cases rest.mapM run <;> rfl

theorem bind_of_ok {traced : Traced α} {value : α} (done : traced.result = .ok value)
    (next : α → Traced β) :
    traced.bind next = ⟨(next value).result, traced.steps ++ (next value).steps⟩ := by
  rw [bind, done]

theorem bind_eq_ok_iff {traced : Traced α} {next : α → Traced β} {result : β} :
    (traced.bind next).result = .ok result ↔
      ∃ value, traced.result = .ok value ∧ (next value).result = .ok result := by
  obtain ⟨outcome, steps⟩ := traced
  cases outcome with
  | error error => simp [bind]
  | ok value => simp [bind]

/-- Where nothing fails, the steps of every item are taken, in the order of the items. -/
theorem steps_mapM_of_ok {change : α → Traced β} {steps : α → List BatchStep} {items : List α}
    {values : List β}
    (each : ∀ item value, (change item).result = .ok value → (change item).steps = steps item)
    (done : (mapM change items).result = .ok values) :
    (mapM change items).steps = items.flatMap steps := by
  induction items generalizing values with
  | nil => rfl
  | cons item rest ih =>
      obtain ⟨value, first, onward⟩ := bind_eq_ok_iff.mp done
      obtain ⟨others, doneRest, _⟩ := bind_eq_ok_iff.mp onward
      rw [mapM, bind_of_ok first, bind_of_ok doneRest, each item value first, ih doneRest,
        List.flatMap_cons]
      exact congrArg (steps item ++ ·) (List.append_nil _)

end Traced

def Evaluation.traced (evaluation : Evaluation) (environment : Environment)
    (context this : Value) : Traced Value :=
  ⟨evaluation.run environment context this, [.evaluation evaluation.field this]⟩

namespace Plan

def traceEvaluate (plan : Plan) (environment : Environment) (context : Value)
    (objects : List Value) : Traced (List (List Value)) :=
  Traced.mapM (fun this => Traced.mapM
    (fun evaluation => evaluation.traced environment context this) plan.evaluations) objects

def trace (plan : Plan) (environment : Environment) (engine : Engine) (ids : List Value) :
    Traced (List (List Value)) :=
  (Traced.ofLogged (plan.fetchObjects engine ids)).bind fun objects =>
    (Traced.ofLogged (plan.fetchContext engine)).bind fun context =>
      plan.traceEvaluate environment context objects

theorem logged_traceEvaluate (plan : Plan) (environment : Environment) (context : Value)
    (objects : List Value) : (plan.traceEvaluate environment context objects).logged =
      .silent (plan.evaluate environment context objects) :=
  Traced.logged_mapM (fun _ => Traced.logged_mapM (fun _ => rfl) plan.evaluations) objects

theorem logged_trace (plan : Plan) (environment : Environment) (engine : Engine)
    (ids : List Value) :
    (plan.trace environment engine ids).logged = plan.run environment engine ids := by
  simp only [trace, run, Traced.logged_bind, Traced.logged_ofLogged, logged_traceEvaluate]

theorem steps_traceEvaluate_of_ok {plan : Plan} {environment : Environment} {context : Value}
    {objects : List Value} {rows : List (List Value)}
    (done : (plan.traceEvaluate environment context objects).result = .ok rows) :
    (plan.traceEvaluate environment context objects).steps =
      objects.flatMap fun this =>
        plan.evaluations.map fun evaluation => .evaluation evaluation.field this := by
  refine Traced.steps_mapM_of_ok (fun this row computed => ?_) done
  rw [List.map_eq_flatMap]
  exact Traced.steps_mapM_of_ok (fun _ _ _ => rfl) computed

theorem length_of_fetchObjects {plan : Plan} {engine : Engine} {ids objects : List Value}
    (fetched : (plan.fetchObjects engine ids).result = .ok objects) :
    objects.length = ids.length := by
  rw [fetchObjects] at fetched
  split at fetched
  · obtain rfl := Except.ok.inj fetched
    exact List.length_map _
  · obtain ⟨answer, _, counted⟩ := bind_eq_ok_iff.mp fetched
    rw [checkCount] at counted
    split at counted
    · next same =>
        obtain rfl := Except.ok.inj counted
        exact same
    · cases counted

/-- In a batch that succeeds every field is evaluated once for each object, after the calls. -/
theorem steps_trace_of_ok {plan : Plan} {environment : Environment} {engine : Engine}
    {ids : List Value} {rows : List (List Value)}
    (done : (plan.trace environment engine ids).result = .ok rows) :
    ∃ objects : List Value, objects.length = ids.length ∧
      (plan.trace environment engine ids).steps =
        (plan.run environment engine ids).calls.map .call ++
          objects.flatMap fun this =>
            plan.evaluations.map fun evaluation => .evaluation evaluation.field this := by
  obtain ⟨objects, fetched, onward⟩ := Traced.bind_eq_ok_iff.mp done
  obtain ⟨context, fetchedToo, evaluated⟩ := Traced.bind_eq_ok_iff.mp onward
  refine ⟨objects, length_of_fetchObjects fetched, ?_⟩
  have answered : (plan.fetchObjects engine ids).result = .ok objects := fetched
  have answeredToo : (plan.fetchContext engine).result = .ok context := fetchedToo
  rw [trace, Traced.bind_of_ok fetched, Traced.bind_of_ok fetchedToo,
    steps_traceEvaluate_of_ok evaluated]
  simp only [run, Logged.bind, answered, answeredToo, Logged.silent, Traced.ofLogged,
    List.append_nil, List.map_append, List.append_assoc]

end Plan

namespace Schema

def trace (schema : Schema) (engine : Engine) (ids : List Value)
    (requests : List FieldRequest) : Traced (List (List Value)) :=
  match requests with
  | [] => .silent (.ok (ids.map fun _ => []))
  | first :: _ =>
      match Plan.ofRequests first requests with
      | .error error => .silent (.error error)
      | .ok plan => plan.trace schema.environment engine ids

def traceFields (schema : Schema) (engine : Engine) (node : String) (ids : List Value)
    (fields : List Head) : Traced (List (Entries Value)) :=
  match schema.requestsOf node fields with
  | .error error => .silent (.error error)
  | .ok requests =>
      (schema.trace engine ids (requests.map Prod.snd)).map fun rows =>
        rows.map fun values => Entries.ofList ((requests.map Prod.fst).zip values)

/-- In a batch that succeeds the engine is called first, and then each requested field is evaluated
once for each object, in the order of the objects and of the requests. -/
theorem steps_trace_of_ok {schema : Schema} {engine : Engine} {ids : List Value}
    {requests : List FieldRequest} {rows : List (List Value)}
    (done : (schema.trace engine ids requests).result = .ok rows) :
    ∃ objects : List Value, objects.length = ids.length ∧
      (schema.trace engine ids requests).steps =
        (schema.compute engine ids requests).calls.map .call ++
          objects.flatMap fun this =>
            requests.map fun request => .evaluation request.field this := by
  cases requests with
  | nil => exact ⟨ids, rfl, by simp [trace, compute, Traced.silent, Logged.silent]⟩
  | cons first rest =>
      simp only [trace, compute] at done ⊢
      cases planned : Plan.ofRequests first (first :: rest) with
      | error error =>
          rw [planned] at done
          cases done
      | ok plan =>
          rw [planned] at done
          obtain ⟨objects, counted, steps⟩ := Plan.steps_trace_of_ok done
          refine ⟨objects, counted, ?_⟩
          rw [steps]
          congr
          funext this
          have named := congrArg (List.map fun field => BatchStep.evaluation field this)
            (Plan.ofRequests_ok planned).fields
          rwa [List.map_map, List.map_map] at named

end Schema

end GraphQuery
