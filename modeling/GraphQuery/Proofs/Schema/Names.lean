import GraphQuery.Proofs.Graph.Views
import GraphQuery.Proofs.Schema.Built

/-!
Names in a built schema. Nothing on a node is defined twice, except that a computed field can have
the name of a field that its node inherits from an interface.
-/

namespace GraphQuery

theorem invalidOption?_eq_none_iff {before : List String} {options : List OptionDef} :
    invalidOption? before options = none ↔ (options.map OptionDef.name).Nodup ∧
      ∀ option ∈ options, option.name ≠ thisName ∧ option.name ∉ before := by
  induction options generalizing before with
  | nil => simp [invalidOption?]
  | cons option rest ih =>
      simp only [invalidOption?, List.map_cons, List.nodup_cons, List.forall_mem_cons]
      split
      · rename_i taken
        simp only [Bool.or_eq_true, beq_iff_eq, List.contains_iff_mem] at taken
        simp only [reduceCtorEq, false_iff]
        rintro ⟨_, ⟨different, fresh⟩, _⟩
        exact taken.elim different fresh
      · rename_i free
        simp only [Bool.or_eq_true, beq_iff_eq, List.contains_iff_mem, not_or] at free
        rw [ih]
        constructor
        · rintro ⟨nodup, others⟩
          refine ⟨⟨?_, nodup⟩, free, fun other member => ?_⟩
          · intro again
            obtain ⟨other, member, same⟩ := List.mem_map.mp again
            exact (others other member).2 (same ▸ List.mem_cons_self)
          · have held := others other member
            exact ⟨held.1, fun known => held.2 (List.mem_cons_of_mem _ known)⟩
        · rintro ⟨⟨fresh, nodup⟩, _, others⟩
          refine ⟨nodup, fun other member => ⟨(others other member).1, fun known => ?_⟩⟩
          rcases List.mem_cons.mp known with same | known
          · exact fresh (List.mem_map.mpr ⟨other, member, same⟩)
          · exact (others other member).2 known

def ComputedFieldDef.key (definition : ComputedFieldDef) : String × String :=
  (definition.node, definition.name)

namespace ComputedField

def key (field : ComputedField) : String × String :=
  (field.node, field.name)

/-- A field stands on a declared node beside the node's own fields, and no two of its options have
one name or that of the object. -/
structure Placed (graph : Graph) (field : ComputedField) : Prop where
  beside : ∃ node, graph.node? field.node = some node ∧ node.fields.find? field.name = none
  options : (field.options.map OptionDef.name).Nodup
  this : ∀ option ∈ field.options, option.name ≠ thisName

end ComputedField

theorem Graph.isSome_field?_inherited {graph : Graph} {node : NodeDef} {name field : String}
    (known : graph.node? name = some node) (notOwn : node.fields.find? field = none) :
    (graph.field? (.object name) field).isSome = true ↔ ∃ interface ∈ node.implements,
      ∃ shared, graph.interface? interface = some shared ∧ shared.contains field = true := by
  rw [field?_object known, notOwn, Option.none_or, List.isSome_head?, inherited]
  simp only [ne_eq, List.filterMap_eq_nil_iff, List.mem_filterMap, not_forall,
    ← Option.isSome_iff_ne_none]
  constructor
  · rintro ⟨shared, ⟨interface, implemented, declared⟩, found⟩
    exact ⟨interface, implemented, shared, declared, found⟩
  · rintro ⟨interface, implemented, shared, declared, found⟩
    exact ⟨shared, ⟨interface, implemented, declared⟩, found⟩

namespace Schema

variable {graph : Graph} {environment : Environment}

theorem find?_eq_none_iff {fields : List ComputedField} {node name : String} :
    find? fields node name = none ↔ (node, name) ∉ fields.map ComputedField.key := by
  simp only [find?, List.find?_eq_none, List.mem_map, ComputedField.key, Prod.mk.injEq,
    Bool.and_eq_true, beq_iff_eq, not_exists, not_and]

/-- What is defined beside some fields has a key that none of these has. -/
theorem placed_of_define {fields : List ComputedField} {definition : ComputedFieldDef}
    {field : ComputedField} (defined : define graph environment fields definition = .ok field) :
    field.key = definition.key ∧ field.key ∉ fields.map ComputedField.key ∧
      field.Placed graph := by
  simp only [define] at defined
  split at defined
  · cases defined
  · rename_i node known
    split at defined
    · cases defined
    · rename_i fresh
      split at defined
      · cases defined
      · rename_i valid
        obtain ⟨expr, _, defined⟩ := bind_eq_ok_iff.mp defined
        obtain ⟨checked, _, defined⟩ := bind_eq_ok_iff.mp defined
        obtain ⟨program, _, made⟩ := bind_eq_ok_iff.mp defined
        obtain rfl := Except.ok.inj made
        rw [Bool.or_eq_true, not_or, Entries.contains, Bool.not_eq_true, Bool.not_eq_true,
          Option.isSome_eq_false_iff, Option.isSome_eq_false_iff, Option.isNone_iff_eq_none,
          Option.isNone_iff_eq_none] at fresh
        obtain ⟨nodup, different⟩ := invalidOption?_eq_none_iff.mp valid
        exact ⟨rfl, find?_eq_none_iff.mp fresh.2, ⟨node, known, fresh.1⟩, nodup,
          fun option member => (different option member).1⟩

theorem placed_of_defineAll {definitions : List ComputedFieldDef}
    {fields result : List ComputedField}
    (defined : defineAll graph environment fields definitions = .ok result)
    (nodup : (fields.map ComputedField.key).Nodup) (placed : ∀ field ∈ fields, field.Placed graph) :
    result.map ComputedField.key =
        fields.map ComputedField.key ++ definitions.map ComputedFieldDef.key ∧
      (result.map ComputedField.key).Nodup ∧ ∀ field ∈ result, field.Placed graph := by
  induction definitions generalizing fields with
  | nil =>
      obtain rfl := Except.ok.inj defined
      exact ⟨(List.append_nil _).symm, nodup, placed⟩
  | cons definition rest ih =>
      obtain ⟨field, first, defined⟩ := bind_eq_ok_iff.mp defined
      obtain ⟨same, fresh, here⟩ := placed_of_define first
      have keys : (fields ++ [field]).map ComputedField.key =
          fields.map ComputedField.key ++ [definition.key] := by
        rw [List.map_append, List.map_singleton, same]
      have nodupToo : ((fields ++ [field]).map ComputedField.key).Nodup := by
        rw [List.map_append, List.map_singleton, ← List.concat_eq_append]
        exact nodup.concat fresh
      have placedToo : ∀ other ∈ fields ++ [field], other.Placed graph := by
        intro other member
        rcases List.mem_append.mp member with member | member
        · exact placed other member
        · exact List.mem_singleton.mp member ▸ here
      obtain ⟨all, rest⟩ := ih defined nodupToo placedToo
      refine ⟨?_, rest⟩
      rw [all, keys, List.append_assoc]
      rfl

/--
Every declaration has its field, in order. Each field stands on a declared node, no two of them on
one node under one name, and none has the name of the node's own fields; its options have different
names and none is called like the object. Its name is visible on the node only if the node inherits
a field of that name.
-/
theorem build_defines_once {definitions : List ComputedFieldDef} {schema : Schema}
    (built : build graph environment definitions = .ok schema) :
    schema.fields.map ComputedField.key = definitions.map ComputedFieldDef.key ∧
    (schema.fields.map ComputedField.key).Nodup ∧
    ∀ field ∈ schema.fields,
      (field.options.map OptionDef.name).Nodup ∧
      thisName ∉ field.options.map OptionDef.name ∧
      ∃ node, graph.node? field.node = some node ∧ node.fields.find? field.name = none ∧
        ((graph.field? (.object field.node) field.name).isSome = true ↔
          ∃ interface ∈ node.implements, ∃ shared,
            graph.interface? interface = some shared ∧ shared.contains field.name = true) := by
  obtain ⟨fields, defined, made⟩ := bind_eq_ok_iff.mp built
  obtain rfl := Except.ok.inj made
  obtain ⟨keys, nodup, placed⟩ := placed_of_defineAll defined List.nodup_nil (by simp)
  refine ⟨keys, nodup, fun field member => ?_⟩
  obtain ⟨⟨node, known, notOwn⟩, options, this⟩ := placed field member
  refine ⟨options, ?_, node, known, notOwn, Graph.isSome_field?_inherited known notOwn⟩
  intro listed
  obtain ⟨option, declared, same⟩ := List.mem_map.mp listed
  exact this option declared same

def clipDefinitions : List ComputedFieldDef :=
  [⟨"Clip", "caption", .expr (.get (.symbol "this") "title"),
      [⟨"cut", .integer, some (.integer 9)⟩]⟩,
    ⟨"Clip", "length", .expr (.constant (.integer 1)), []⟩]

theorem build_defines_once_caption : ∃ schema caption,
    build .clips [] clipDefinitions = .ok schema ∧ schema.fields.head? = some caption ∧
    (schema.fields.map ComputedField.key).Nodup ∧ "cut" ∈ caption.options.map OptionDef.name ∧
    thisName ∉ caption.options.map OptionDef.name ∧
    (Graph.clips.field? (.object "Clip") caption.name).isSome = false := by
  obtain ⟨_, nodup, each⟩ := @build_defines_once .clips [] clipDefinitions _ rfl
  obtain ⟨_, this, node, known, _, visible⟩ := each _ List.mem_cons_self
  obtain rfl : Graph.clip = node := Option.some.inj known
  refine ⟨_, _, rfl, rfl, nodup, List.mem_singleton_self _, this, ?_⟩
  rw [← Bool.not_eq_true, visible]
  rintro ⟨interface, implemented, shared, declared, contains⟩
  simp only [Graph.clip, List.mem_cons, List.not_mem_nil, or_false] at implemented
  rcases implemented with rfl | rfl | rfl
  · obtain rfl := Option.some.inj declared
    cases contains
  · obtain rfl := Option.some.inj declared
    cases contains
  · cases declared

/-- The length is computed, and a selection on clips still finds the field that they inherit. -/
theorem build_redefines_inherited : ∃ schema length, build .clips [] clipDefinitions = .ok schema ∧
    length ∈ schema.fields ∧
    (Graph.clips.field? (.object length.node) length.name).isSome = true :=
  ⟨_, _, rfl, .tail _ (.head _), rfl⟩

end Schema

end GraphQuery
