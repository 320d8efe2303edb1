import GraphQuery.Proofs.Batch.Plan
import GraphQuery.Proofs.Schema.Requirements

/-!
Batches over stored data: a computed field comes to what it is on all of the data, whatever else is
computed beside it.
-/

namespace GraphQuery

open Requirement

structure Stored where
  object : String → Value → Except String Value
  root : Except String Value

namespace Stored

def objectD (stored : Stored) (node : String) (id : Value) : Value :=
  (stored.object node id).toOption.getD Plan.emptyObject

def rootD (stored : Stored) : Value :=
  stored.root.toOption.getD Plan.emptyObject

end Stored

def Engine.ofStored (stored : Stored) : Engine where
  fetchNode node ids query := ids.mapM fun id => (stored.object node id).map query.project
  fetchRoot query := stored.root.map query.project

namespace Plan

variable {plan : Plan} {stored : Stored} {ids objects : List Value} {context : Value}
  {requests : List FieldRequest} {request : FieldRequest} {graph : Graph}
  {environment : Environment}

theorem fetchObjects_ofStored
    (proper : ∀ id ∈ ids, ∀ value, stored.object plan.owner id = .ok value →
      ∃ entries, value = .object entries)
    (fetched : (plan.fetchObjects (.ofStored stored) ids).result = .ok objects) :
    objects = ids.map fun id => plan.objectQuery.project (stored.objectD plan.owner id) := by
  simp only [fetchObjects] at fetched
  -- an empty object stands for what is not fetched, as an empty query leaves nothing of an object
  split at fetched
  · rename_i nothing
    simp only [Logged.silent, Except.ok.injEq] at fetched
    simp only [Query.isEmpty, Bool.and_eq_true, List.isEmpty_iff] at nothing
    subst fetched
    refine List.map_congr_left ?_
    intro id member
    have whole : ∃ entries, stored.objectD plan.owner id = .object entries := by
      cases found : stored.object plan.owner id with
      | error message => exact ⟨[], by simp [Stored.objectD, found, Except.toOption, emptyObject]⟩
      | ok value =>
          obtain ⟨entries, rfl⟩ := proper id member value found
          exact ⟨entries, by simp [Stored.objectD, found, Except.toOption]⟩
    obtain ⟨entries, same⟩ := whole
    rw [same, Query.project_of_no_selections nothing.1]
    rfl
  · obtain ⟨answers, answered, checked⟩ := bind_eq_ok_iff.mp fetched
    have counted : answers = objects := by
      simp only [checkCount] at checked
      split at checked
      · exact Except.ok.inj checked
      · simp at checked
    have aligned := mapM_eq_ok_iff.mp (mapError_eq_ok_iff.mp answered)
    rw [← counted, eq_comm, ← List.forall₂_eq_eq_eq, List.forall₂_map_left_iff]
    refine aligned.imp ?_
    intro id answer found
    obtain ⟨value, known, rfl⟩ := map_eq_ok_iff.mp found
    simp [Stored.objectD, known, Except.toOption]

/-- A context that is not fetched does not have to offer anything. -/
theorem offers_fetchContext {options : List String} {merged : Query}
    (root : plan.rootQuery = otherBranches merged) (plain : merged.Plain)
    (distinct : merged.Distinct)
    (fetched : (plan.fetchContext (.ofStored stored)).result = .ok context) :
    Offers options merged context stored.rootD := by
  simp only [fetchContext] at fetched
  split at fetched
  · rename_i nothing
    rw [root] at nothing
    have unselected : ∀ link name, name ≠ thisName → ¬ merged.Selects link [name] := by
      intro link name different selects
      exact Query.not_selects_of_isEmpty nothing
        ((selects_otherBranches_iff different).mpr selects)
    refine ⟨?_, ?_⟩
    · exact fun name different _ selects => (unselected true name different selects).elim
    · exact fun name different _ selects => (unselected false name different selects).elim
  · obtain ⟨value, known, rfl⟩ := map_eq_ok_iff.mp (mapError_eq_ok_iff.mp fetched)
    have whole : stored.rootD = value := by simp [Stored.rootD, known, Except.toOption]
    rw [root, whole]
    exact offers_otherBranches plain distinct value

def objectLink : Query := .ofSelections [.link (.named thisName) .empty]

theorem plain_objectLink : objectLink.Plain := by
  refine .mk ?_ ?_
  · intro selection member
    obtain rfl := List.mem_singleton.mp member
    rfl
  · intro head inner member
    obtain ⟨_, rfl⟩ := Selection.link.inj (List.mem_singleton.mp member)
    exact Query.plain_empty

theorem eq_of_selects_objectLink {link : Bool} {path : List String}
    (selects : objectLink.Selects link path) : path = [thisName] := by
  cases selects with
  | here member _ =>
      obtain rfl := List.mem_singleton.mp member
      rfl
  | under member below =>
      obtain ⟨_, rfl⟩ := Selection.link.inj (List.mem_singleton.mp member)
      exact (Query.not_selects_empty below).elim

theorem merges_requirements
    (plain : ∀ request ∈ requests, request.field.requirements.Plain) :
    Merges (objectLink :: requests.map fun request => request.field.requirements)
      (Plan.requirements requests) := by
  refine mergeRequirements_merges ?_
  intro query member
  rcases List.mem_cons.mp member with rfl | member
  · exact plain_objectLink
  · obtain ⟨request, inside, rfl⟩ := List.mem_map.mp member
    exact plain request inside

/-- The requirements of a batch cover each of its fields. -/
theorem covered_requirements (flat : graph.Flat)
    (defined : ∀ request ∈ requests, ∃ checked, request.field.Defined graph environment checked)
    (owner : ∀ request ∈ requests, request.field.node = plan.owner)
    (member : request ∈ requests) :
    request.field.CoveredBy graph (Plan.requirements requests) := by
  have covered : ∀ other ∈ requests, other.field.CoveredBy graph other.field.requirements := by
    intro other inside
    obtain ⟨checked, defined⟩ := defined other inside
    exact defined.covered flat
  have merges := merges_requirements fun other inside => (covered other inside).plain
  refine ⟨merges.plain, merges.distinct, ?_, ?_⟩
  · intro link path selects
    have inside : request.field.requirements ∈
        objectLink :: requests.map fun request => request.field.requirements :=
      List.mem_cons_of_mem _ (List.mem_map_of_mem member)
    exact merges.selects inside selects
  · intro path selects
    obtain ⟨query, inside, selects⟩ := (merges.links path).mp selects
    rcases List.mem_cons.mp inside with rfl | inside
    · obtain rfl := eq_of_selects_objectLink selects
      exact ⟨.named .type request.field.node, ⟨thisName, [], _, rfl, by simp [Graph.roots], .nil⟩,
        graph.types_holdsRecords.holdsObjects_named .type _⟩
    · obtain ⟨other, known, rfl⟩ := List.mem_map.mp inside
      rw [owner request member, ← owner other known]
      exact (covered other known).objects path selects

end Plan

namespace Schema

variable {graph : Graph} {environment : Environment} {definitions : List ComputedFieldDef}
  {schema : Schema} {stored : Stored} {ids : List Value} {requests : List FieldRequest}
  {request : FieldRequest} {rows : List (List Value)} {checked : Checked} {place : Nat}

/-- What a batch gives for a discreet field is what the field is on all of the data. -/
theorem compute_column (built : Schema.build graph environment definitions = .ok schema)
    (flat : schema.graph.Flat)
    (accepted : Typing.check ⟨schema.graph.types, schema.environment⟩
      (request.field.definition.roots schema.graph) request.field.expr = .ok checked)
    (discreet : checked.Discreet schema.graph.types schema.environment)
    (proper : ∀ id ∈ ids, ∀ value, stored.object request.field.node id = .ok value →
      ∃ entries, value = .object entries)
    (known : ∀ other ∈ requests, other.field ∈ schema.fields)
    (requested : requests[place]? = some request)
    (computed : (schema.compute (.ofStored stored) ids requests).result = .ok rows) :
    ∃ options values, request.optionValues = .ok options ∧
      ids.mapM (fun id => request.field.program.call schema.environment
        (stored.objectD request.field.node id) stored.rootD options) = .ok values ∧
      rows.map (fun row => row[place]?) = values.map some := by
  obtain ⟨rfl, rfl, fields⟩ := Schema.build_ok built
  have member : request ∈ requests := List.mem_of_getElem? requested
  obtain ⟨plan, made, ran⟩ := compute_ok (List.ne_nil_of_mem member) computed
  obtain ⟨objects, context, fetched, fetchedToo, evaluated⟩ := Plan.run_eq_ok_iff.mp ran
  obtain ⟨options, values, valued, called, column⟩ := made.evaluate evaluated requested
  refine ⟨options, values, valued, ?_, column⟩
  obtain ⟨found, defined⟩ := fields request.field (known request member)
  obtain rfl := Except.ok.inj (defined.accepted.symm.trans accepted)
  have covered := Plan.covered_requirements flat
    (fun other inside => fields other.field (known other inside)) made.owner member
  rw [made.owner request member] at proper ⊢
  rw [← called, Plan.fetchObjects_ofStored proper fetched, made.objectQuery]
  refine (mapM_map_eq fun id _ => ?_).symm
  exact defined.call_project flat discreet covered
    (Plan.offers_fetchContext made.rootQuery covered.plain covered.distinct fetchedToo) _ options

/--
Batch independence: over stored data, two batches that succeed give the same values for a request
that is in both, one for every id, if its field is discreet and the types of the graph are flat.
-/
theorem compute_independent (built : Schema.build graph environment definitions = .ok schema)
    (flat : schema.graph.Flat)
    (accepted : Typing.check ⟨schema.graph.types, schema.environment⟩
      (request.field.definition.roots schema.graph) request.field.expr = .ok checked)
    (discreet : checked.Discreet schema.graph.types schema.environment)
    (proper : ∀ id ∈ ids, ∀ value, stored.object request.field.node id = .ok value →
      ∃ entries, value = .object entries)
    {others : List FieldRequest} {placeToo : Nat} {rowsToo : List (List Value)}
    (known : ∀ other ∈ requests ++ others, other.field ∈ schema.fields)
    (requested : requests[place]? = some request)
    (requestedToo : others[placeToo]? = some request)
    (computed : (schema.compute (.ofStored stored) ids requests).result = .ok rows)
    (computedToo : (schema.compute (.ofStored stored) ids others).result = .ok rowsToo) :
    ∃ values : List Value, values.length = ids.length ∧
      rows.map (fun row => row[place]?) = values.map some ∧
      rowsToo.map (fun row => row[placeToo]?) = values.map some := by
  obtain ⟨options, values, valued, called, column⟩ := compute_column built flat accepted discreet
    proper (fun other member => known other (List.mem_append_left _ member)) requested computed
  obtain ⟨optionsToo, valuesToo, valuedToo, calledToo, columnToo⟩ := compute_column built flat
    accepted discreet proper (fun other member => known other (List.mem_append_right _ member))
    requestedToo computedToo
  obtain rfl := Except.ok.inj (valued.symm.trans valuedToo)
  obtain rfl := Except.ok.inj (called.symm.trans calledToo)
  exact ⟨values, (mapM_eq_ok_iff.mp called).length_eq.symm, column, columnToo⟩

end Schema

def Stored.always (item : Value) : Stored where
  object _ _ := .ok item
  root := .ok (.object [("currency", .string "EUR")])

theorem Schema.compute_independent_cost : ∃ rows rowsToo,
    (Schema.shop.compute (.ofStored (.always .couponItem)) [.integer 1]
      [⟨.cost, none⟩]).result = .ok rows ∧
    (Schema.shop.compute (.ofStored (.always .couponItem)) [.integer 1]
      [⟨.discount, none⟩, ⟨.cost, none⟩]).result = .ok rowsToo ∧
    ∃ values : List Value, values.length = 1 ∧ rows.map (fun row => row[0]?) = values.map some ∧
      rowsToo.map (fun row => row[1]?) = values.map some := by
  have flat : Graph.shop.Flat := Graph.flat_of_isFlat rfl
  have alone : (Schema.shop.compute (.ofStored (.always .couponItem)) [.integer 1]
    [⟨.cost, none⟩]).result = .ok [[.integer 3]] := rfl
  have beside : (Schema.shop.compute (.ofStored (.always .couponItem)) [.integer 1]
    [⟨.discount, none⟩, ⟨.cost, none⟩]).result = .ok [[.integer 7, .integer 3]] := rfl
  refine ⟨_, _, alone, beside, ?_⟩
  refine Schema.compute_independent Schema.build_shop flat rfl Checked.discreet_cost ?_ ?_ rfl rfl
    alone beside
  · rintro id - value found
    exact ⟨_, (Except.ok.inj found).symm⟩
  · intro other member
    simp only [List.cons_append, List.nil_append, List.mem_cons, List.not_mem_nil,
      or_false] at member
    rcases member with rfl | rfl | rfl
    · exact List.mem_cons_self
    · exact List.mem_cons_of_mem _ List.mem_cons_self
    · exact List.mem_cons_self

def Schema.first? (built : Except SchemaError Schema) (item : Value) (count : Nat) :
    Option Value :=
  match built with
  | .error _ => none
  | .ok schema =>
      let requests := (schema.fields.take count).map fun field => ⟨field, none⟩
      match (schema.compute (.ofStored (.always item)) [.integer 1] requests).result with
      | .ok [first :: _] => some first
      | _ => none

def Expr.Depends (graph : Graph) (environment : Environment) (expr beside : Expr)
    (item : Value) : Prop :=
  let built := Schema.build graph environment [.ofItem "first" expr, .ofItem "second" beside]
  ∃ alone together, alone ≠ together ∧ Schema.first? built item 1 = some alone ∧
    Schema.first? built item 2 = some together

def Function.whole (param : Ty) : Function where
  params := [param]
  call args := .ok (.list args)

def Function.under (name : String) (ty : Ty) : Function where
  params := [.record [(name, ty)]]
  call
    | [item] => .ok ((item.get? name).getD (.integer 0))
    | _ => .error "no item"

def Function.firstPrice (rows : Ty → Ty) : Function where
  params := [rows .priced]
  call
    | [.list (.list (item :: _) :: _)] => .ok ((item.get? "price").getD (.integer 0))
    | [.list (item :: _)] => .ok ((item.get? "price").getD (.integer 0))
    | _ => .error "no items"

def Graph.boxes (rows : Ty → Ty) : Graph where
  root := []
  nodes := [("Item", ⟨[("price", ⟨.integer, []⟩), ("weight", ⟨.integer, []⟩),
    ("rows", ⟨rows (.named .type "Item"), []⟩)], []⟩)]
  interfaces := []
  unions := []

def Value.box (rows : List Value) : Value :=
  .object [("price", .integer 3), ("weight", .integer 4), ("rows", .list rows)]

def Expr.DependsInBoxes (rows : Ty → Ty) (item : Value) : Prop :=
  Expr.Depends (.boxes rows)
    [("price", .firstPrice rows),
      ("weights", .whole (.record [("rows", rows (.record [("weight", .integer)]))]))]
    (.apply "price" [.get (.symbol "this") "rows"]) (.apply "weights" [.symbol "this"]) item

/-- What becomes of independence without each of the conditions. -/
theorem Schema.compute_depends :
    -- an object is used whole
    Expr.Depends .shop [] .coupon .discount .couponItem ∧
    -- a function sees more than its template asks for
    Expr.Depends .shop [("whole", .whole .priced)] (.apply "whole" [.symbol "this"]) .coupon
      .couponItem ∧
    -- a template names a field that holds an object
    Expr.Depends .shop [("coupon", .under "coupon" .any)] (.apply "coupon" [.symbol "this"])
      .coupon .couponItem ∧
    -- sequences stand in a sequence
    Expr.DependsInBoxes (fun item => .sequence (.sequence item)) (.box [.list [.box []]]) ∧
    -- optionals stand in an optional
    Expr.DependsInBoxes (fun item => .sequence (.optional (.optional item))) (.box [.box []]) ∧
    -- what is stored is no object
    Expr.Depends .shop [] (.ifSome "item" (.symbol "this") (.number 1) (.number 0))
      (.ifSome "item" (.symbol "this") (.get (.symbol "item") "price") (.number 0)) .null := by
  refine ⟨?_, ?_, ?_, ?_, ?_, ?_⟩
  · exact ⟨.object [], .object [("discount", .integer 7)], by simp, rfl, rfl⟩
  · exact ⟨.list [.object [("price", .integer 3)]],
      .list [.object [("price", .integer 3), ("coupon", .object [])]], by simp, rfl, rfl⟩
  · exact ⟨.object [("discount", .integer 7)], .object [], by simp, rfl, rfl⟩
  · exact ⟨.integer 3, .integer 0, by simp, rfl, rfl⟩
  · exact ⟨.integer 3, .integer 0, by simp, rfl, rfl⟩
  · exact ⟨.integer 1, .integer 0, by simp, rfl, rfl⟩

end GraphQuery
