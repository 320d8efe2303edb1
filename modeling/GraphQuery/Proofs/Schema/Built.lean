import GraphQuery.Proofs.Except
import GraphQuery.Schema

/-!
What holds of every computed field of a built schema.
-/

namespace GraphQuery

namespace ComputedField

def definition (field : ComputedField) : ComputedFieldDef :=
  ⟨field.node, field.name, .expr field.expr, field.options⟩

structure Defined (graph : Graph) (environment : Environment) (field : ComputedField)
    (checked : Checked) : Prop where
  node : ∃ node, graph.node? field.node = some node
  options : invalidOption? [] field.options = none
  accepted : Typing.check ⟨graph.types, environment⟩ (field.definition.roots graph) field.expr =
    .ok checked
  requirements : field.requirements =
    (checked.requirements graph.types).withoutOptions field.definition.optionNames
  compiled : checked.compile field.definition.optionNames = .ok field.program

end ComputedField

theorem name_ne_this_of_invalidOption? {before : List String} {options : List OptionDef}
    (valid : invalidOption? before options = none) :
    ∀ option ∈ options, option.name ≠ thisName := by
  induction options generalizing before with
  | nil => simp
  | cons option rest ih =>
      simp only [invalidOption?] at valid
      split at valid
      · simp at valid
      · rename_i fine
        intro other member
        rcases List.mem_cons.mp member with rfl | member
        · intro same
          simp [same] at fine
        · exact ih valid other member

/-! Names that are bound before checking: of the object, of options and of the graph root -/

def Graph.roots (graph : Graph) (node : String) : List (String × Ty) :=
  graph.root.mapValues FieldDef.ty ++ [(thisName, .named .type node)]

theorem Graph.mem_root_of_lookup (graph : Graph) {name : String} {ty : Ty}
    (found : (graph.root.mapValues FieldDef.ty).reverse.lookup name = some ty) :
    ∃ entry ∈ graph.root, entry.1 = name ∧ entry.2.ty = ty := by
  obtain ⟨before, after, split, _⟩ := List.lookup_eq_some_iff.mp found
  have member : (name, ty) ∈ graph.root.mapValues FieldDef.ty := by
    rw [← List.mem_reverse, split]
    simp
  obtain ⟨entry, declared, made⟩ := List.mem_map.mp member
  exact ⟨entry, declared, (Prod.mk.inj made).1, (Prod.mk.inj made).2⟩

namespace ComputedFieldDef

variable {definition : ComputedFieldDef} {graph : Graph} {name : String}

def optionTypes (definition : ComputedFieldDef) : List (String × Ty) :=
  definition.options.map fun option => (option.name, option.ty)

theorem lookup_optionTypes_iff :
    definition.optionTypes.reverse.lookup name = none ↔ name ∉ definition.optionNames := by
  rw [List.lookup_eq_none_iff]
  constructor
  · intro absent member
    obtain ⟨option, declared, rfl⟩ := List.mem_map.mp member
    have different := absent (option.name, option.ty)
      (List.mem_reverse.mpr (List.mem_map_of_mem declared))
    simp at different
  · intro absent entry member
    obtain ⟨option, declared, rfl⟩ := List.mem_map.mp (List.mem_reverse.mp member)
    refine bne_iff_ne.mpr ?_
    rintro rfl
    exact absent (List.mem_map_of_mem declared)

theorem lookup_roots (graphName : name ∉ definition.optionNames) :
    (definition.roots graph).reverse.lookup name =
      (graph.roots definition.node).reverse.lookup name := by
  have absent := lookup_optionTypes_iff.mpr graphName
  simp only [optionTypes] at absent
  simp only [roots, Graph.roots, List.reverse_append, List.lookup_append, absent, Option.none_or]

theorem lookup_roots_option (option : name ∈ definition.optionNames)
    (different : name ≠ thisName) :
    (definition.roots graph).reverse.lookup name =
      definition.optionTypes.reverse.lookup name := by
  have other : (name == thisName) = false := beq_eq_false_iff_ne.mpr different
  cases found : definition.optionTypes.reverse.lookup name with
  | none => exact (lookup_optionTypes_iff.mp found option).elim
  | some ty =>
      simp only [optionTypes] at found
      simp only [roots, List.reverse_append, List.lookup_append, found, List.reverse_singleton,
        List.lookup_cons, other, List.lookup_nil, Option.none_or, Option.some_or]

end ComputedFieldDef

theorem ComputedField.thisName_notMem {field : ComputedField}
    (valid : invalidOption? [] field.options = none) :
    thisName ∉ field.definition.optionNames := by
  intro member
  obtain ⟨option, declared, same⟩ := List.mem_map.mp member
  exact name_ne_this_of_invalidOption? valid option declared same

namespace Schema

variable {graph : Graph} {environment : Environment}

theorem define_ok {fields : List ComputedField} {definition : ComputedFieldDef}
    {field : ComputedField} (defined : define graph environment fields definition = .ok field) :
    ∃ checked, field.Defined graph environment checked := by
  simp only [define] at defined
  split at defined
  · simp at defined
  · rename_i node known
    split at defined
    · simp at defined
    · split at defined
      · simp at defined
      · rename_i valid
        obtain ⟨expr, _, defined⟩ := bind_eq_ok_iff.mp defined
        obtain ⟨checked, accepted, defined⟩ := bind_eq_ok_iff.mp defined
        obtain ⟨program, compiled, made⟩ := bind_eq_ok_iff.mp defined
        simp only [Except.ok.injEq] at made
        subst made
        exact ⟨checked, ⟨node, known⟩, valid, mapError_eq_ok_iff.mp accepted, rfl,
          mapError_eq_ok_iff.mp compiled⟩

theorem defineAll_ok {definitions : List ComputedFieldDef} {fields result : List ComputedField}
    (defined : defineAll graph environment fields definitions = .ok result)
    (before : ∀ field ∈ fields, ∃ checked, field.Defined graph environment checked) :
    ∀ field ∈ result, ∃ checked, field.Defined graph environment checked := by
  induction definitions generalizing fields with
  | nil =>
      simp only [defineAll, Except.ok.injEq] at defined
      exact defined ▸ before
  | cons definition rest ih =>
      obtain ⟨field, first, defined⟩ := bind_eq_ok_iff.mp defined
      refine ih defined ?_
      intro other member
      rcases List.mem_append.mp member with member | member
      · exact before other member
      · simp only [List.mem_singleton] at member
        exact member ▸ define_ok first

theorem build_ok {definitions : List ComputedFieldDef} {schema : Schema}
    (built : build graph environment definitions = .ok schema) :
    schema.graph = graph ∧ schema.environment = environment ∧
      ∀ field ∈ schema.fields, ∃ checked, field.Defined graph environment checked := by
  obtain ⟨fields, defined, made⟩ := bind_eq_ok_iff.mp built
  simp only [Except.ok.injEq] at made
  subst made
  exact ⟨rfl, rfl, defineAll_ok defined (by simp)⟩

end Schema

end GraphQuery
