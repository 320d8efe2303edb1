import GraphQuery.Graph.Lookup
import GraphQuery.Proofs.Schema.Valid

/-!
The two views of the fields of a node: its record among the types of a graph, and the field that a
selection on it finds. They have the same fields. Where a node inherits a field from several
interfaces, the selection finds that of the first, and the record takes the type of the last.
-/

namespace GraphQuery

namespace Entries

variable {α β : Type}

theorem lookup_reverse {entries : Entries α} (nodup : entries.keys.Nodup) (key : String) :
    entries.reverse.lookup key = entries.find? key := by
  refine Option.ext fun value => ?_
  rw [← find?_ofList, find?_ofList_iff nodup]
  exact ⟨find?_of_mem nodup, mem_of_find?⟩

theorem lookup_mapValues (change : α → β) (entries : Entries α) (key : String) :
    (entries.mapValues change).lookup key = (entries.lookup key).map change := by
  induction entries with
  | nil => rfl
  | cons entry rest ih =>
      obtain ⟨other, value⟩ := entry
      simp only [mapValues, List.map_cons, List.lookup_cons] at ih ⊢
      split
      · rfl
      · exact ih

/-- Of several layers, the last one that has a key decides. -/
theorem lookup_reverse_flatten {layers : List (Entries α)}
    (nodup : ∀ layer ∈ layers, layer.keys.Nodup) (key : String) :
    layers.flatten.reverse.lookup key = (layers.filterMap (·.find? key)).getLast? := by
  induction layers using List.reverseRecOn with
  | nil => rfl
  | append_singleton layers last ih =>
      have earlier := ih fun layer member => nodup layer (List.mem_append_left _ member)
      have own := lookup_reverse (nodup last (by simp)) key
      rw [List.flatten_append, List.flatten_singleton, List.reverse_append, List.lookup_append,
        own, earlier, List.filterMap_append, List.getLast?_append]
      cases found : last.find? key <;> simp [found]

end Entries

namespace Graph

structure Keyed (graph : Graph) : Prop where
  nodes : graph.nodes.keys.Nodup
  own : ∀ entry ∈ graph.nodes, entry.2.fields.keys.Nodup
  shared : ∀ entry ∈ graph.interfaces, entry.2.keys.Nodup

def inherited (graph : Graph) (node : NodeDef) (name : String) : List FieldDef :=
  (node.implements.filterMap graph.interface?).filterMap (·.find? name)

variable {graph : Graph} {node : NodeDef} {name : String}

theorem field?_object (known : graph.node? name = some node) (field : String) :
    graph.field? (.object name) field =
      (node.fields.find? field).or (graph.inherited node field).head? := by
  rw [field?, known, inherited, List.head?_filterMap]
  rfl

namespace Keyed

theorem get?_types (keyed : graph.Keyed) (known : graph.node? name = some node) :
    graph.types.get? name = some (recordOf (graph.allFields node)) := by
  have member : (name, node) ∈ graph.nodes := Entries.mem_of_find? known
  obtain ⟨⟨_, declared⟩, memberToo, rfl, held⟩ : ∃ entry ∈ graph.nodes, entry.1 = name ∧
      graph.types.get? name = some (recordOf (graph.allFields entry.2)) :=
    Registry.get?_foldl_insert Prod.fst (fun entry => recordOf (graph.allFields entry.2))
      graph.nodes ⟨_, member, rfl⟩
  obtain rfl : declared = node :=
    Option.some.inj ((Entries.find?_of_mem keyed.nodes memberToo).symm.trans known)
  exact held

theorem lookup_allFields (keyed : graph.Keyed) (known : graph.node? name = some node)
    (field : String) : (graph.allFields node).reverse.lookup field =
      (node.fields.find? field).or (graph.inherited node field).getLast? := by
  have own := keyed.own _ (Entries.mem_of_find? known)
  have shared : ∀ fields ∈ node.implements.filterMap graph.interface?, fields.keys.Nodup := by
    intro fields member
    obtain ⟨interface, _, declared⟩ := List.mem_filterMap.mp member
    exact keyed.shared _ (Entries.mem_of_find? declared)
  rw [allFields, List.reverse_append, List.lookup_append, Entries.lookup_reverse own,
    Entries.lookup_reverse_flatten shared, inherited]

end Keyed

/--
The record of a node has exactly the fields that a selection on the node finds. The record's type of
a field is the type of the field that is found exactly if the node declares the field itself, or if
the first and the last of its interfaces that declare it give it one type.
-/
theorem types_agree_iff (keyed : graph.Keyed) (known : graph.node? name = some node) :
    ∃ fields, graph.types.get? name = some (.record fields) ∧ ∀ field,
      ((Entries.find? fields field).isSome ↔ (graph.field? (.object name) field).isSome) ∧
      (Entries.find? fields field = (graph.field? (.object name) field).map FieldDef.ty ↔
        (node.fields.find? field).isSome ∨
          (graph.inherited node field).getLast?.map FieldDef.ty =
            (graph.inherited node field).head?.map FieldDef.ty) := by
  refine ⟨_, keyed.get?_types known, fun field => ?_⟩
  have recorded : Entries.find? (Entries.ofList ((graph.allFields node).mapValues FieldDef.ty))
      field = ((node.fields.find? field).or (graph.inherited node field).getLast?).map
        FieldDef.ty := by
    rw [Entries.find?_ofList, Entries.mapValues, ← List.map_reverse, ← Entries.mapValues,
      Entries.lookup_mapValues, keyed.lookup_allFields known]
  rw [recorded, field?_object known]
  cases node.fields.find? field with
  | some own => simp
  | none => simp [Option.isSome_map]

def clip : NodeDef :=
  ⟨[("title", ⟨.string, []⟩)], ["Timed", "Stored", "Tagged"]⟩

def clips : Graph where
  root := []
  nodes := [("Clip", clip)]
  interfaces := [("Timed", [("length", ⟨.integer, []⟩)]),
    ("Stored", [("length", ⟨.string, []⟩), ("bytes", ⟨.integer, []⟩)])]
  unions := []

theorem keyed_clips : clips.Keyed :=
  ⟨by decide, by decide, by decide⟩

theorem types_agree_iff_bytes : clips.Keyed ∧ clips.node? "Clip" = some clip ∧
    ∃ fields, clips.types.get? "Clip" = some (.record fields) ∧
      (Entries.find? fields "title").isSome ∧
      Entries.find? fields "bytes" =
        (clips.field? (.object "Clip") "bytes").map FieldDef.ty := by
  have known : clips.node? "Clip" = some clip := rfl
  obtain ⟨fields, record, agree⟩ := types_agree_iff keyed_clips known
  exact ⟨keyed_clips, rfl, fields, record, (agree "title").1.mpr rfl,
    (agree "bytes").2.mpr (.inr rfl)⟩

/-- A selection finds the field of the first interface, and the record has that of the last. -/
theorem types_disagree : ∃ fields, clips.Keyed ∧
    clips.types.get? "Clip" = some (.record fields) ∧
    Entries.find? fields "length" = some .string ∧
    (clips.field? (.object "Clip") "length").map FieldDef.ty = some .integer :=
  ⟨_, keyed_clips, rfl, rfl, rfl⟩

end Graph

end GraphQuery
