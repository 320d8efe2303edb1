import GraphQuery.Proofs.Op.Program
import GraphQuery.Proofs.Schema.Built
import GraphQuery.Proofs.Typed.Safety

/-!
Computed fields of a built schema go wrong in functions only.
-/

namespace GraphQuery

namespace ComputedField

variable {typing : Typing} {unresolved : NameKind → String → Value → Prop} {graph : Graph}
  {field : ComputedField} {this context : Value} {options : List Value}

structure Inputs (types : Registry) (unresolved : NameKind → String → Value → Prop)
    (graph : Graph) (field : ComputedField) (this context : Value) (options : List Value) :
    Prop where
  this : types.Conforms unresolved (.named .type field.node) this
  context : ∀ entry ∈ graph.root, ∃ value, context.get? entry.1 = some value ∧
    types.Conforms unresolved entry.2.ty value
  options : List.Forall₂ (fun option value => types.Conforms unresolved option.ty value)
    field.options options

theorem options_aligned {types : Registry} {declared : List OptionDef}
    (conform : List.Forall₂ (fun option value => types.Conforms unresolved option.ty value)
      declared options) :
    List.Forall₂ (fun (entry : String × Ty) (other : String × Value) =>
        entry.1 = other.1 ∧ types.Conforms unresolved entry.2 other.2)
      (declared.map fun option => (option.name, option.ty))
      ((declared.map OptionDef.name).zip options) := by
  induction conform with
  | nil => exact .nil
  | cons first _ ih => exact .cons ⟨rfl, first⟩ ih

theorem Inputs.read_option {types : Registry}
    (inputs : Inputs types unresolved graph field this context options) {name : String} {ty : Ty}
    (bound : field.definition.optionTypes.reverse.lookup name = some ty) :
    ∃ value, Bindings.read (.ofArguments this field.definition.optionNames options) context name =
        .ok value ∧ types.Conforms unresolved ty value := by
  have related := lookup_rel (List.rel_reverse (options_aligned inputs.options)) name
  simp only [ComputedFieldDef.optionTypes, definition] at bound
  rw [bound] at related
  simp only [Bindings.read, Bindings.ofArguments, List.reverse_cons, List.lookup_append,
    ComputedFieldDef.optionNames, definition]
  cases values : ((field.options.map OptionDef.name).zip options).reverse.lookup name with
  | none => simp [values] at related
  | some value =>
      rw [values] at related
      cases related with
      | some conforms => exact ⟨value, by simp, conforms⟩

theorem Inputs.read_root {types : Registry}
    (inputs : Inputs types unresolved graph field this context options) {name : String} {ty : Ty}
    (free : name ∉ field.definition.optionNames) (different : name ≠ thisName)
    (bound : (graph.root.mapValues FieldDef.ty).reverse.lookup name = some ty) :
    ∃ value, Bindings.read (.ofArguments this field.definition.optionNames options) context name =
        .ok value ∧ types.Conforms unresolved ty value := by
  obtain ⟨entry, declared, rfl, rfl⟩ := graph.mem_root_of_lookup bound
  obtain ⟨value, found, conforms⟩ := inputs.context entry declared
  refine ⟨value, ?_, conforms⟩
  simp only [Bindings.read, Bindings.lookup_free free different, Value.readContext, found]

theorem Inputs.read {types : Registry} (inputs : Inputs types unresolved graph field this context
      options) (valid : invalidOption? [] field.options = none) {name : String} {ty : Ty}
    (bound : (field.definition.roots graph).reverse.lookup name = some ty) :
    ∃ value, Bindings.read (.ofArguments this field.definition.optionNames options) context name =
        .ok value ∧ types.Conforms unresolved ty value := by
  have free := thisName_notMem valid
  by_cases option : name ∈ field.definition.optionNames
  · have different : name ≠ thisName := by
      rintro rfl
      exact free option
    rw [ComputedFieldDef.lookup_roots_option option different] at bound
    exact inputs.read_option bound
  · rw [ComputedFieldDef.lookup_roots option, Graph.roots, List.reverse_append,
      List.reverse_singleton, List.singleton_append] at bound
    by_cases same : name = thisName
    · subst same
      rw [List.lookup_cons_self, Option.some.injEq] at bound
      subst bound
      exact ⟨this, by simp only [Bindings.read, Bindings.lookup_this free], inputs.this⟩
    · have other : (name == thisName) = false := beq_eq_false_iff_ne.mpr same
      rw [List.lookup_cons, other] at bound
      exact inputs.read_root option same bound

theorem Inputs.reads {checked : Checked} {scope : Scope}
    (inputs : Inputs typing.types unresolved graph field this context options)
    (valid : invalidOption? [] field.options = none)
    (binds : Typing.BindsRoots (field.definition.roots graph) scope checked.references) :
    typing.Reads unresolved checked.references scope context
      (.ofArguments this field.definition.optionNames options) := by
  intro name reference found
  obtain ⟨ty, bound, entry⟩ := binds.root name reference found
  obtain ⟨value, read, conforms⟩ := inputs.read valid bound
  refine ⟨value, read, ?_⟩
  simpa only [Typing.Denotes, References.ty_of_get? entry] using conforms

/-- A defined field is safe on conforming inputs, and its value conforms to its own reference. -/
theorem Defined.safe {environment : Environment} {checked : Checked}
    (defined : field.Defined graph environment checked)
    (inputs : Inputs graph.types unresolved graph field this context options) :
    Safe environment (field.program.call environment this context options)
      (Typing.Fulfils ⟨graph.types, environment⟩ unresolved checked.references checked.root) := by
  obtain ⟨scope, binds, wellTyped⟩ := Typing.check_sound defined.accepted
  obtain ⟨program, compiled, runs⟩ :=
    Checked.compile_runs defined.accepted field.definition.optionNames
  rw [defined.compiled, Except.ok.injEq] at compiled
  subst compiled
  have counted : options.length = field.definition.optionNames.length := by
    simp [ComputedFieldDef.optionNames, definition, inputs.options.length_eq]
  rw [runs.call environment this context options counted]
  exact Typing.wellTyped_safely wellTyped unresolved context _
    (inputs.reads defined.options binds)

end ComputedField

/--
Type soundness: called with an object of its node, a context and options that conform to what they
are declared as, a computed field gives a value or the error of a function of the schema. If its
expression refers to data, the value conforms to the type of that reference.
-/
theorem Schema.call_sound {graph : Graph} {environment : Environment}
    {definitions : List ComputedFieldDef} {schema : Schema}
    (built : Schema.build graph environment definitions = .ok schema) {field : ComputedField}
    (member : field ∈ schema.fields) {unresolved : NameKind → String → Value → Prop}
    {this context : Value} {options : List Value}
    (inputs : field.Inputs schema.graph.types unresolved schema.graph this context options) :
    ∃ checked, Typing.check ⟨schema.graph.types, schema.environment⟩
        (field.definition.roots schema.graph) field.expr = .ok checked ∧
      ((∃ value, field.program.call schema.environment this context options = .ok value ∧
          ∀ reference, checked.root.reference? = some reference →
            schema.graph.types.Conforms unresolved (checked.references.ty reference) value) ∨
        ∃ name function args message, schema.environment.find? name = some function ∧
          function.call args = .error message ∧
          field.program.call schema.environment this context options =
            .error (.functionFailed name message)) := by
  obtain ⟨rfl, rfl, fields⟩ := Schema.build_ok built
  obtain ⟨checked, defined⟩ := fields field member
  refine ⟨checked, defined.accepted, ?_⟩
  rcases defined.safe inputs with ⟨value, called, fulfils⟩ | ⟨_, called, raised⟩
  · exact Or.inl ⟨value, called, fulfils⟩
  · obtain ⟨name, function, args, message, found, failed, rfl⟩ := raised
    exact Or.inr ⟨name, function, args, message, found, failed, called⟩

def Graph.shop : Graph where
  root := [("currency", ⟨.string, []⟩)]
  nodes := [("Item", ⟨[("price", ⟨.integer, []⟩),
      ("coupon", ⟨.optional (.named .type "Coupon"), []⟩)], []⟩),
    ("Coupon", ⟨[("discount", ⟨.integer, []⟩)], []⟩)]
  interfaces := []
  unions := []

def ComputedFieldDef.couponOf : ComputedFieldDef :=
  ⟨"Item", "couponOf", .expr (.get (.symbol "this") "coupon"), [⟨"bonus", .integer, none⟩]⟩

def Value.couponItem : Value :=
  .object [("price", .integer 3), ("coupon", .object [("discount", .integer 7)])]

theorem ComputedField.inputs_couponOf {field : ComputedField} (node : field.node = "Item")
    (options : field.options = [⟨"bonus", .integer, none⟩]) :
    field.Inputs Graph.shop.types (fun _ _ _ => False) .shop .couponItem
      (.object [("currency", .string "EUR")]) [.integer 0] := by
  have coupon : Graph.shop.types.Conforms (fun _ _ _ => False) (.named .type "Coupon")
      (.object [("discount", .integer 7)]) :=
    @Registry.Conforms.ofAligned _ _ _ [("discount", .integer)] _ rfl
      (.cons ⟨rfl, .integer rfl⟩ .nil)
  have item : Graph.shop.types.Conforms (fun _ _ _ => False) (.named .type "Item") .couponItem :=
    @Registry.Conforms.ofAligned _ _ _
      [("price", .integer), ("coupon", .optional (.named .type "Coupon"))] _ rfl
      (.cons ⟨rfl, .integer rfl⟩ (.cons ⟨rfl, .present rfl coupon⟩ .nil))
  refine ⟨node ▸ item, ?_, options ▸ .cons (.integer rfl) .nil⟩
  intro entry member
  simp only [Graph.shop, List.mem_singleton] at member
  exact member ▸ ⟨.string "EUR", rfl, .string rfl⟩

theorem Schema.call_sound_couponOf : ∃ schema, Schema.build .shop [] [.couponOf] = .ok schema ∧
    ∃ field ∈ schema.fields,
      field.Inputs schema.graph.types (fun _ _ _ => False) schema.graph .couponItem
        (.object [("currency", .string "EUR")]) [.integer 0] ∧
      ∃ value, field.program.call schema.environment .couponItem
          (.object [("currency", .string "EUR")]) [.integer 0] = .ok value ∧
        schema.graph.types.Conforms (fun _ _ _ => False) (.optional (.named .type "Coupon"))
          value := by
  have built : Schema.build .shop [] [.couponOf] = .ok _ := rfl
  refine ⟨_, built, _, List.mem_singleton_self _, ComputedField.inputs_couponOf rfl rfl, ?_⟩
  obtain ⟨checked, accepted, outcome⟩ := Schema.call_sound built (List.mem_singleton_self _)
    (ComputedField.inputs_couponOf rfl rfl)
  obtain rfl := Except.ok.inj (show Except.ok _ = Except.ok checked from accepted)
  rcases outcome with ⟨value, called, conforms⟩ | ⟨_, _, _, _, found, _⟩
  · exact ⟨value, called, conforms _ rfl⟩
  · exact nomatch found

end GraphQuery
