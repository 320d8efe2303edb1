import GraphQuery.Batch
import GraphQuery.Proofs.Except

/-!
What a batch that succeeds went through: planning, fetching and evaluating.
-/

namespace GraphQuery

theorem Logged.bind_eq_ok_iff {α β : Type} {logged : Logged α} {next : α → Logged β} {result : β} :
    (logged.bind next).result = .ok result ↔
      ∃ value, logged.result = .ok value ∧ (next value).result = .ok result := by
  obtain ⟨outcome, calls⟩ := logged
  cases outcome with
  | error error => simp [Logged.bind]
  | ok value => simp [Logged.bind]

namespace Plan

variable {plan : Plan} {first : FieldRequest} {requests : List FieldRequest}

structure For (plan : Plan) (requests : List FieldRequest) : Prop where
  owner : ∀ request ∈ requests, request.field.node = plan.owner
  objectQuery : plan.objectQuery = thisBranch (Plan.requirements requests)
  rootQuery : plan.rootQuery = otherBranches (Plan.requirements requests)
  evaluations : List.Forall₂
    (fun (request : FieldRequest) (evaluation : Evaluation) =>
      evaluation.field = request.field ∧ request.optionValues = .ok evaluation.options)
    requests plan.evaluations

theorem ofRequests_ok (planned : ofRequests first requests = .ok plan) : plan.For requests := by
  simp only [ofRequests] at planned
  split at planned
  · simp at planned
  · rename_i unmixed
    obtain ⟨options, valued, made⟩ := bind_eq_ok_iff.mp planned
    simp only [Except.ok.injEq] at made
    subst made
    refine ⟨?_, rfl, rfl, ?_⟩
    · intro request member
      have same := List.find?_eq_none.mp unmixed request member
      simpa using same
    · have aligned := mapM_eq_ok_iff.mp valued
      clear valued unmixed planned
      induction aligned with
      | nil => exact .nil
      | cons valued _ ih => exact .cons ⟨rfl, valued⟩ ih

theorem For.fields (made : plan.For requests) :
    plan.evaluations.map Evaluation.field = requests.map FieldRequest.field := by
  have aligned : List.Forall₂ (fun request evaluation => request.field = evaluation.field) requests
      plan.evaluations := made.evaluations.imp fun _ _ held => held.1.symm
  have fields : List.Forall₂ Eq (requests.map FieldRequest.field)
      (plan.evaluations.map Evaluation.field) :=
    List.forall₂_map_left_iff.mpr (List.forall₂_map_right_iff.mpr aligned)
  rw [List.forall₂_eq_eq_eq] at fields
  exact fields.symm

theorem run_eq_ok_iff {environment : Environment} {engine : Engine} {ids : List Value}
    {rows : List (List Value)} : (plan.run environment engine ids).result = .ok rows ↔
      ∃ objects context, (plan.fetchObjects engine ids).result = .ok objects ∧
        (plan.fetchContext engine).result = .ok context ∧
        plan.evaluate environment context objects = .ok rows := by
  simp only [run, Logged.bind_eq_ok_iff, Logged.silent]
  constructor
  · rintro ⟨objects, fetched, context, fetchedToo, evaluated⟩
    exact ⟨objects, context, fetched, fetchedToo, evaluated⟩
  · rintro ⟨objects, context, fetched, fetchedToo, evaluated⟩
    exact ⟨objects, fetched, context, fetchedToo, evaluated⟩

theorem exists_column {ε α β γ : Type} {change : α → Except ε β} {read : γ → Option β}
    {items : List α} {rows : List γ} (aligned : List.Forall₂
      (fun item row => ∃ value, read row = some value ∧ change item = .ok value) items rows) :
    ∃ values, items.mapM change = .ok values ∧ rows.map read = values.map some := by
  induction aligned with
  | nil => exact ⟨[], rfl, rfl⟩
  | cons cell _ ih =>
      obtain ⟨value, found, changed⟩ := cell
      obtain ⟨values, changedRest, column⟩ := ih
      refine ⟨value :: values, ?_, by rw [List.map_cons, List.map_cons, found, column]⟩
      exact mapM_eq_ok_iff.mpr (.cons changed (mapM_eq_ok_iff.mp changedRest))

/-- A request has the values that its field has for the objects, in its own place in every row. -/
theorem For.evaluate (made : plan.For requests) {environment : Environment} {context : Value}
    {objects : List Value} {rows : List (List Value)}
    (evaluated : plan.evaluate environment context objects = .ok rows) {place : Nat}
    {request : FieldRequest} (requested : requests[place]? = some request) :
    ∃ options values, request.optionValues = .ok options ∧
      objects.mapM (fun this => request.field.program.call environment this context options) =
        .ok values ∧
      rows.map (fun row => row[place]?) = values.map some := by
  obtain ⟨inside, rfl⟩ := List.getElem?_eq_some_iff.mp requested
  have insideToo : place < plan.evaluations.length := made.evaluations.length_eq ▸ inside
  obtain ⟨field, valued⟩ := made.evaluations.get inside insideToo
  simp only [List.get_eq_getElem] at field valued
  have cell : ∀ this row, (plan.evaluations.mapM fun evaluation =>
        evaluation.run environment context this) = .ok row → ∃ value, row[place]? = some value ∧
      requests[place].field.program.call environment this context
        plan.evaluations[place].options = .ok value := by
    intro this row computed
    have aligned := mapM_eq_ok_iff.mp computed
    have insideRow : place < row.length := aligned.length_eq ▸ insideToo
    have ran := aligned.get insideToo insideRow
    simp only [List.get_eq_getElem, Evaluation.run, field] at ran
    exact ⟨row[place], List.getElem?_eq_getElem insideRow, mapError_eq_ok_iff.mp ran⟩
  obtain ⟨values, called, column⟩ := exists_column ((mapM_eq_ok_iff.mp evaluated).imp cell)
  exact ⟨_, values, valued, called, column⟩

end Plan

theorem Schema.compute_ok {schema : Schema} {engine : Engine} {ids : List Value}
    {requests : List FieldRequest} {rows : List (List Value)} (some : requests ≠ [])
    (computed : (schema.compute engine ids requests).result = .ok rows) :
    ∃ plan : Plan, plan.For requests ∧
      (plan.run schema.environment engine ids).result = .ok rows := by
  obtain ⟨first, rest, rfl⟩ := List.exists_cons_of_ne_nil some
  simp only [Schema.compute] at computed
  split at computed
  · simp [Logged.silent] at computed
  · rename_i plan planned
    exact ⟨plan, Plan.ofRequests_ok planned, computed⟩

end GraphQuery
