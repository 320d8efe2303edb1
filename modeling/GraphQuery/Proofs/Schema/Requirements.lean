import GraphQuery.Proofs.Op.Program
import GraphQuery.Proofs.Query.MergeRequirements
import GraphQuery.Proofs.Query.Restrict
import GraphQuery.Proofs.Requirement.Faithful
import GraphQuery.Proofs.Requirement.Sources
import GraphQuery.Proofs.Schema.Safety
import GraphQuery.Proofs.Ty.Flat

/-!
The requirements of a computed field: paths through the graph that are enough for evaluating it.
-/

namespace GraphQuery

open Requirement

theorem Graph.Flat.flatRoots {graph : Graph} (flat : graph.Flat) (definition : ComputedFieldDef) :
    FlatRoots graph.types (definition.roots graph) definition.optionNames := by
  intro name root graphName found
  rw [ComputedFieldDef.lookup_roots graphName, Graph.roots, List.reverse_append,
    List.reverse_singleton, List.singleton_append, List.lookup_cons] at found
  split at found
  · exact Option.some.inj found ▸ flat.node definition.node
  · obtain ⟨entry, declared, _, rfl⟩ := graph.mem_root_of_lookup found
    exact flat.root entry declared

theorem Typing.Leads.throughGraph {graph : Graph} {definition : ComputedFieldDef}
    {path : List String} {ty : Ty} (leads : Leads graph.types (definition.roots graph) path ty)
    (visible : Visible definition.optionNames path) :
    Leads graph.types (graph.roots definition.node) path ty := by
  obtain ⟨name, labels, root, rfl, found, walks⟩ := leads
  rw [ComputedFieldDef.lookup_roots (visible name rfl)] at found
  exact ⟨name, labels, root, rfl, found, walks⟩

theorem Plan.offers_otherBranches {merged : Query} (plain : merged.Plain)
    (distinct : merged.Distinct) {options : List String} (root : Value) :
    Offers options merged ((otherBranches merged).project root) root := by
  refine ⟨?_, ?_⟩
  · intro name different _ selects
    exact get?_project_otherBranches_link plain distinct different selects root
  · intro name different _ selects
    exact get?_project_otherBranches_field plain distinct different selects root

/--
An expression says what it uses of objects: none that it has a reference to is used whole but as an
argument for which there is a template, templates name fields that hold no objects, and functions
see nothing beyond them.
-/
structure Checked.Discreet (types : Registry) (environment : Environment) (checked : Checked) :
    Prop where
  root : ¬ checked.root.Carries types checked.references
  parts : checked.root.Discreet types checked.references
  leaves : ScalarLeaves types checked.references checked.root
  functions : checked.root.Confined environment

namespace ComputedField

structure CoveredBy (graph : Graph) (field : ComputedField) (merged : Query) : Prop where
  plain : merged.Plain
  distinct : merged.Distinct
  selects : ∀ link path, field.requirements.Selects link path →
    merged.Selects true path ∨ merged.Selects link path
  objects : ∀ path, merged.Selects true path → ∃ ty,
    Typing.Leads graph.types (graph.roots field.node) path ty ∧ graph.types.HoldsObjects ty

variable {graph : Graph} {environment : Environment} {field : ComputedField} {checked : Checked}
  {merged : Query} {query : Query} {link : Bool} {path : List String}

namespace Defined

theorem requires (defined : field.Defined graph environment checked)
    (member : query ∈ collect graph.types checked.references checked.root) :
    Requires ⟨graph.types, environment⟩ checked.references (field.definition.roots graph)
      checked.root query := by
  obtain ⟨scope, binds, wellTyped⟩ := Typing.check_sound defined.accepted
  exact requires_of_mem_collect wellTyped (.ofRoots binds) member

theorem merges (defined : field.Defined graph environment checked) :
    Merges (collect graph.types checked.references checked.root)
      (checked.requirements graph.types) :=
  mergeRequirements_merges fun _ member => (defined.requires member).plain

theorem plain (defined : field.Defined graph environment checked) : field.requirements.Plain :=
  defined.requirements ▸ defined.merges.plain.restrict

theorem selects_iff (defined : field.Defined graph environment checked) :
    field.requirements.Selects link path ↔
      (checked.requirements graph.types).Selects link path ∧
        Visible field.definition.optionNames path := by
  rw [defined.requirements, Query.selects_withoutOptions_iff]
  rfl

theorem arrives (defined : field.Defined graph environment checked) (flat : graph.Flat)
    (member : query ∈ collect graph.types checked.references checked.root)
    (selects : query.Selects link path) (visible : Visible field.definition.optionNames path) :
    ∃ ty, Arrives graph.types checked.references (graph.roots field.node) checked.root link path
      ty := by
  obtain ⟨scope, binds, _⟩ := Typing.check_sound defined.accepted
  obtain ⟨ty, arrives⟩ := (defined.requires member).arrives binds.ordered
    (flat.flatRoots field.definition) selects visible
  exact ⟨ty, arrives.leads.throughGraph visible, arrives.objects, arrives.data⟩

theorem covered (defined : field.Defined graph environment checked) (flat : graph.Flat) :
    field.CoveredBy graph field.requirements := by
  refine ⟨?_, ?_, fun _ _ selects => Or.inr selects, ?_⟩
  · exact defined.requirements ▸ defined.merges.plain.restrict
  · exact defined.requirements ▸ defined.merges.distinct.restrict
  · intro path selects
    obtain ⟨selects, visible⟩ := defined.selects_iff.mp selects
    obtain ⟨query, member, selects⟩ := (defined.merges.links path).mp selects
    obtain ⟨ty, arrives⟩ := defined.arrives flat member selects visible
    exact ⟨ty, arrives.leads, arrives.objects rfl⟩

theorem supplies (defined : field.Defined graph environment checked) (flat : graph.Flat)
    (leaves : ScalarLeaves graph.types checked.references checked.root)
    (covered : field.CoveredBy graph merged) :
    ∀ query ∈ collect graph.types checked.references checked.root,
      Supplies merged field.definition.optionNames query := by
  intro query member link path selects visible
  obtain ⟨ty, arrives⟩ := defined.arrives flat member selects visible
  have required : merged.Selects true path ∨ merged.Selects link path := by
    rcases defined.merges.selects member selects with linked | selects
    · exact Or.inl ((covered.selects true path
        (defined.selects_iff.mpr ⟨linked, visible⟩)).elim id id)
    · exact covered.selects link path (defined.selects_iff.mpr ⟨selects, visible⟩)
  -- a link in place of a field would lead to objects, which the field does not hold
  rcases required with linked | selects
  · cases link with
    | true => exact linked
    | false =>
        obtain ⟨_, leads, objects⟩ := covered.objects path linked
        exact (arrives.data rfl leaves (arrives.leads.unique leads ▸ objects)).elim
  · exact selects

theorem agree (defined : field.Defined graph environment checked) {scope : Scope}
    (binds : Typing.BindsRoots (field.definition.roots graph) scope checked.references)
    {options : List Value} (counted : options.length = field.definition.optionNames.length)
    (merged : Query) (this : Value) :
    Agree ⟨graph.types, environment⟩ checked.references field.definition.optionNames merged scope
      (.ofArguments ((Plan.thisBranch merged).project this) field.definition.optionNames options)
      (.ofArguments this field.definition.optionNames options) := by
  have free := thisName_notMem defined.options
  intro name index found
  obtain ⟨ty, bound, entry⟩ := binds.root name index found
  have path : checked.references.path index = [name] := References.path_of_root entry rfl
  -- the object is projected, options are the same, and other names are left to the context
  by_cases same : name = thisName
  · subst same
    refine Or.inl ⟨_, this, Bindings.lookup_this free _, Bindings.lookup_this free _,
      Or.inr ⟨?_, ?_, ?_⟩⟩
    · rw [path]
      exact fun first head => Option.some.inj head ▸ free
    · rw [ComputedFieldDef.lookup_roots free, Graph.roots, List.reverse_append,
        List.reverse_singleton, List.singleton_append, List.lookup_cons_self,
        Option.some.injEq] at bound
      rw [References.ty_of_get? entry, ← bound]
      exact graph.types_holdsRecords.holdsObjects_named .type field.definition.node
    · rw [path, Plan.thisBranch_eq]
  · by_cases option : name ∈ field.definition.optionNames
    · obtain ⟨value, looked⟩ := Bindings.lookup_option counted option
      exact Or.inl ⟨value, value, looked _, looked _, Or.inl rfl⟩
    · exact Or.inr ⟨Bindings.lookup_free option same _, Bindings.lookup_free option same _, same,
        option, ty, entry⟩

/-- A discreet field does not see what is not fetched for it by a query that covers it. -/
theorem call_project (defined : field.Defined graph environment checked) (flat : graph.Flat)
    (discreet : checked.Discreet graph.types environment) (covered : field.CoveredBy graph merged)
    {seen context : Value} (offers : Offers field.definition.optionNames merged seen context)
    (this : Value) (options : List Value) :
    field.program.call environment ((Plan.thisBranch merged).project this) seen options =
      field.program.call environment this context options := by
  obtain ⟨scope, binds, wellTyped⟩ := Typing.check_sound defined.accepted
  obtain ⟨program, compiled, runs⟩ :=
    Checked.compile_runs defined.accepted field.definition.optionNames
  rw [defined.compiled, Except.ok.injEq] at compiled
  subst compiled
  by_cases counted : options.length = field.definition.optionNames.length
  · have setting : Setting ⟨graph.types, environment⟩ checked.references
        (field.definition.roots graph) field.definition.optionNames merged :=
      ⟨binds.ordered, flat.flatRoots field.definition,
        covered.plain, covered.distinct⟩
    have faithful := wellTyped_faithful wellTyped setting offers (.ofRoots binds)
      (defined.supplies flat discreet.leaves covered) discreet.parts discreet.functions _ _
      (defined.agree binds counted merged this)
    rw [runs.call _ _ _ _ counted, runs.call _ _ _ _ counted]
    exact faithful.eq discreet.root
  · have miscounted : options.length ≠ field.program.options := runs.arity ▸ counted
    simp only [Program.call, miscounted, if_false]

end Defined

end ComputedField

/--
Requirements suffice: on the part of the data that a computed field requires of its object and of
the graph root, a discreet field gives the value or the error that it gives on all of the data.
-/
theorem Schema.call_requirements {graph : Graph} {environment : Environment}
    {definitions : List ComputedFieldDef} {schema : Schema}
    (built : Schema.build graph environment definitions = .ok schema) {field : ComputedField}
    (member : field ∈ schema.fields) (flat : schema.graph.Flat) {checked : Checked}
    (accepted : Typing.check ⟨schema.graph.types, schema.environment⟩
      (field.definition.roots schema.graph) field.expr = .ok checked)
    (discreet : checked.Discreet schema.graph.types schema.environment) (this context : Value)
    (options : List Value) :
    field.program.call schema.environment ((Plan.thisBranch field.requirements).project this)
        ((Plan.otherBranches field.requirements).project context) options =
      field.program.call schema.environment this context options := by
  obtain ⟨rfl, rfl, fields⟩ := Schema.build_ok built
  obtain ⟨known, defined⟩ := fields field member
  obtain rfl := Except.ok.inj (defined.accepted.symm.trans accepted)
  have covered := defined.covered flat
  exact defined.call_project flat discreet covered
    (Plan.offers_otherBranches covered.plain covered.distinct context) this options

def Query.price : Query := .ofSelections [.field (.named "price")]

def Ty.priced : Ty := .record [("price", .integer)]

def Function.cost : Function where
  params := [.priced]
  call
    | [item] => (item.get? "price").elim (.error "no price") .ok
    | _ => .error "no item"

def ComputedFieldDef.ofItem (name : String) (expr : Expr) : ComputedFieldDef :=
  ⟨"Item", name, .expr expr, []⟩

def Expr.cost : Expr := .apply "cost" [.symbol "this"]

def ComputedField.cost : ComputedField where
  node := "Item"
  name := "cost"
  options := []
  expr := .cost
  requirements := .ofSelections [.link (.named "this") .price]
  program := ⟨.call "cost" [.slot 0], 1, 0⟩

def Expr.coupon : Expr := .get (.symbol "this") "coupon"

def Expr.number (number : Int64) : Expr := .constant (.integer number)

def Expr.discount : Expr :=
  .ifSome "coupon" .coupon (.get (.symbol "coupon") "discount") (.number 0)

def ComputedField.discount : ComputedField where
  node := "Item"
  name := "discount"
  options := []
  expr := .discount
  requirements := .ofSelections [.link (.named "this")
    (.ofSelections [.link (.named "coupon") (.ofSelections [.field (.named "discount")])])]
  program := ⟨.ifSome 1 (.get (.slot 0) "coupon") (.get (.slot 1) "discount")
    (.const (.integer 0)), 2, 0⟩

def Schema.shop : Schema where
  graph := .shop
  environment := [("cost", .cost)]
  fields := [.cost, .discount]

theorem Schema.build_shop : Schema.build .shop [("cost", .cost)]
    [.ofItem "cost" .cost, .ofItem "discount" .discount] = .ok .shop := rfl

def Checked.cost : Checked :=
  ⟨.call "cost" [.priced] [.symbol 1 "this"],
    ⟨#[⟨none, some "currency", .string⟩, ⟨none, some "this", .named .type "Item"⟩]⟩⟩

theorem Function.confined_cost : Function.cost.Confined := by
  rintro args others counted countedToo alike
  obtain ⟨item, rfl⟩ := List.length_eq_one_iff.mp counted
  obtain ⟨other, rfl⟩ := List.length_eq_one_iff.mp countedToo
  have plain : Query.price.Plain := Ty.plain_template .priced _ rfl
  have distinct : Query.price.Distinct :=
    .mk (by decide) (by simp [Query.price, Query.selections, Query.ofSelections])
  have selects : Query.price.Selects false ["price"] :=
    Query.selects_single_iff.mpr ⟨_, List.mem_singleton_self _, rfl, rfl⟩
  have same : Query.price.project item = Query.price.project other := (List.cons.inj alike).1
  simp only [Function.cost]
  rw [← Query.get?_project_field plain distinct selects, same,
    Query.get?_project_field plain distinct selects]

theorem Checked.contains_cost {part : Typed} (inside : Checked.cost.root.Contains part) :
    part = Checked.cost.root ∨ part = .symbol 1 "this" := by
  cases inside with
  | refl => exact Or.inl rfl
  | step member inside =>
      obtain rfl := List.mem_singleton.mp member
      cases inside with
      | refl => exact Or.inr rfl
      | step member _ => exact nomatch member

theorem Checked.discreet_cost : Checked.cost.Discreet Graph.shop.types [("cost", .cost)] := by
  refine ⟨?_, ?_, ?_, ?_⟩
  · rintro ⟨_, own, _⟩
    exact nomatch own
  · intro part inside used member
    rcases Checked.contains_cost inside with rfl | rfl
    · exact nomatch member
    · exact nomatch member
  · intro name params args inside pair member index below path ty own asked selects walks
    rcases Checked.contains_cost inside with same | same
    · obtain ⟨_, rfl, rfl⟩ := Typed.call.inj same
      obtain rfl := List.mem_singleton.mp member
      obtain rfl := Option.some.inj own
      obtain rfl : Query.price = below := Option.some.inj asked
      obtain rfl : path = ["price"] := by
        cases selects with
        | here chosen _ =>
            obtain rfl := List.mem_singleton.mp chosen
            rfl
        | under chosen _ => exact nomatch List.mem_singleton.mp chosen
      have price : Graph.shop.types.Walks (.named .type "Item") ["price"] .integer :=
        .cons (.record rfl) rfl .nil
      obtain rfl := walks.unique price
      intro objects
      cases objects with
      | record same | named same | optional same _ | sequence same _ => exact nomatch same
    · exact nomatch same
  · intro name params args inside function found
    rcases Checked.contains_cost inside with same | same
    · obtain ⟨rfl, _, _⟩ := Typed.call.inj same
      obtain rfl := Option.some.inj found
      exact Function.confined_cost
    · exact nomatch same

theorem Schema.call_requirements_cost :
    ComputedField.cost ∈ Schema.shop.fields ∧ Graph.shop.Flat ∧
    Typing.check ⟨Graph.shop.types, [("cost", .cost)]⟩
      (ComputedField.cost.definition.roots .shop) .cost = .ok .cost ∧
    Checked.cost.Discreet Graph.shop.types [("cost", .cost)] ∧
    ComputedField.cost.program.call [("cost", .cost)]
        ((Plan.thisBranch ComputedField.cost.requirements).project .couponItem)
        ((Plan.otherBranches ComputedField.cost.requirements).project .null) [] =
      .ok (.integer 3) := by
  have member : ComputedField.cost ∈ Schema.shop.fields := List.mem_cons_self
  have flat : Graph.shop.Flat := Graph.flat_of_isFlat rfl
  refine ⟨member, flat, rfl, Checked.discreet_cost, ?_⟩
  exact (Schema.call_requirements build_shop member flat rfl Checked.discreet_cost .couponItem .null
    []).trans rfl

end GraphQuery
