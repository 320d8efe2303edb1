import GraphQuery.Proofs.Requirement.Linked
import GraphQuery.Proofs.Schema.Requirements

/-!
Requirements are valid queries: they start from the object of a node or from a field of the graph
root, and each further label is a field of the record that the label before it holds.
-/

namespace GraphQuery

namespace Registry

variable {types : Registry} {name : String} {ty : Ty}

theorem get?_insert (name sought : String) (ty : Ty) :
    (types.insert name ty).get? sought = if name = sought then some ty else types.get? sought :=
  Entries.find?_insert name sought ty types.types

theorem get?_foldl_insert {α : Type} (key : α → String) (make : α → Ty) (entries : List α)
    (known : ∃ entry ∈ entries, key entry = name) :
    ∃ entry ∈ entries, key entry = name ∧
      (entries.foldl (fun registry entry => registry.insert (key entry) (make entry)) types).get?
        name = some (make entry) := by
  induction entries using List.reverseRecOn with
  | nil => simp at known
  | append_singleton entries last ih =>
      rw [List.foldl_concat, get?_insert]
      by_cases same : key last = name
      · exact ⟨last, by simp, same, if_pos same⟩
      · rw [if_neg same]
        obtain ⟨entry, member, named⟩ := known
        have earlier : entry ∈ entries := by
          rcases List.mem_append.mp member with earlier | only
          · exact earlier
          · exact (same (List.mem_singleton.mp only ▸ named)).elim
        obtain ⟨found, memberToo, namedToo, held⟩ := ih ⟨entry, earlier, named⟩
        exact ⟨found, List.mem_append_left _ memberToo, namedToo, held⟩

end Registry

namespace Graph

/-- The name of a node stands for the record of its fields. -/
theorem resolve_node (graph : Graph) {name : String} {node : NodeDef}
    (known : graph.node? name = some node) : ∃ declared, (name, declared) ∈ graph.nodes ∧
      graph.types.resolve (.named .type name) = recordOf (graph.allFields declared) := by
  have member : (name, node) ∈ graph.nodes := Entries.mem_of_find? known
  obtain ⟨⟨_, declared⟩, memberToo, rfl, held⟩ := Registry.get?_foldl_insert Prod.fst
    (fun entry => recordOf (graph.allFields entry.2)) graph.nodes ⟨_, member, rfl⟩
  exact ⟨declared, memberToo, Registry.resolve_named .type held⟩

/--
What a path of a field on a node starts from: the object itself, which is the record of its node, or
a field of the graph root.
-/
inductive Starts (graph : Graph) (node : String) : String → Ty → Prop
  | this {declared} : (node, declared) ∈ graph.nodes →
      Starts graph node thisName (recordOf (graph.allFields declared))
  | root {name field} : name ≠ thisName → (name, field) ∈ graph.root →
      Starts graph node name field.ty

theorem starts_of_lookup {graph : Graph} {node : NodeDef} {owner name : String} {ty last : Ty}
    {labels : List String} (known : graph.node? owner = some node)
    (found : (graph.roots owner).reverse.lookup name = some ty)
    (walks : graph.types.Walks ty labels last) :
    ∃ start last, graph.Starts owner name start ∧ graph.types.Walks start labels last := by
  rw [roots, List.reverse_append, List.reverse_singleton, List.singleton_append] at found
  by_cases same : name = thisName
  · subst same
    rw [List.lookup_cons_self, Option.some.injEq] at found
    subst found
    obtain ⟨declared, member, resolved⟩ := graph.resolve_node known
    cases walks with
    | nil => exact ⟨_, _, .this member, .nil⟩
    | cons reaches field walks =>
        have record : graph.types.Reaches (.named .type owner)
            (Entries.ofList ((graph.allFields declared).mapValues FieldDef.ty)) :=
          .record resolved
        obtain rfl := reaches.unique record
        exact ⟨_, _, .this member, .cons (.record (Registry.resolve_record _)) field walks⟩
  · rw [List.lookup_cons, beq_eq_false_iff_ne.mpr same] at found
    obtain ⟨⟨_, field⟩, member, rfl, rfl⟩ := graph.mem_root_of_lookup found
    exact ⟨_, _, .root same member, walks⟩

end Graph

namespace ComputedField.Defined

open Requirement

variable {graph : Graph} {environment : Environment} {field : ComputedField} {checked : Checked}
  {path : List String}

theorem visible (defined : field.Defined graph environment checked)
    (has : field.requirements.Has path) : Visible field.definition.optionNames path := by
  obtain ⟨_, selects⟩ := has
  exact (defined.selects_iff.mp selects).2

theorem leads (defined : field.Defined graph environment checked)
    (has : field.requirements.Has path) :
    ∃ ty, Typing.Leads graph.types (graph.roots field.node) path ty := by
  obtain ⟨link, selects⟩ := has
  obtain ⟨required, visible⟩ := defined.selects_iff.mp selects
  obtain ⟨query, member, hasToo⟩ := defined.merges.has_iff.mp ⟨link, required⟩
  obtain ⟨scope, binds, _⟩ := Typing.check_sound defined.accepted
  obtain ⟨ty, leads⟩ := (defined.requires member).leads binds.ordered hasToo
  exact ⟨ty, leads.throughGraph visible⟩

end ComputedField.Defined

/--
Requirements are valid queries. Their selections are names and nothing else. Every path of them
starts from the object of the field's node or from a field of the graph root, which no option hides,
and each further label is a field of the record that the label before it holds.
-/
theorem Schema.requirements_valid {graph : Graph} {environment : Environment}
    {definitions : List ComputedFieldDef} {schema : Schema}
    (built : Schema.build graph environment definitions = .ok schema) {field : ComputedField}
    (member : field ∈ schema.fields) :
    field.requirements.Plain ∧
      (∀ path, field.requirements.Has path → ∃ name labels start last, path = name :: labels ∧
        name ∉ field.definition.optionNames ∧ schema.graph.Starts field.node name start ∧
        schema.graph.types.Walks start labels last) ∧
      ∀ selection ∈ field.requirements.selections,
        selection.name ∉ field.definition.optionNames := by
  obtain ⟨rfl, rfl, fields⟩ := Schema.build_ok built
  obtain ⟨checked, defined⟩ := fields field member
  refine ⟨defined.plain, ?_, ?_⟩
  · intro path has
    obtain ⟨_, name, labels, root, rfl, found, walks⟩ := defined.leads has
    obtain ⟨node, known⟩ := defined.node
    obtain ⟨start, last, starts, walksToo⟩ := Graph.starts_of_lookup known found walks
    exact ⟨name, labels, start, last, rfl, defined.visible has name rfl, starts, walksToo⟩
  · intro selection chosen
    exact defined.visible (Query.has_single_iff.mpr ⟨selection, chosen, rfl⟩) _ rfl

theorem Schema.requirements_valid_discount : ComputedField.discount ∈ Schema.shop.fields ∧
    ComputedField.discount.requirements.Has ["this", "coupon", "discount"] ∧
    ∃ start last, Graph.shop.Starts "Item" "this" start ∧
      Graph.shop.types.Walks start ["coupon", "discount"] last := by
  have member : ComputedField.discount ∈ Schema.shop.fields := .tail _ (.head _)
  have has : ComputedField.discount.requirements.Has ["this", "coupon", "discount"] :=
    .under (.head _) (.under (.head _) (.single (.head _)))
  obtain ⟨_, valid, _⟩ := Schema.requirements_valid build_shop member
  obtain ⟨name, labels, start, last, same, _, starts, walks⟩ := valid _ has
  obtain ⟨rfl, rfl⟩ := List.cons.inj same
  exact ⟨member, has, start, last, starts, walks⟩

end GraphQuery
