import GraphQuery.Graph.Merge
import GraphQuery.Proofs.Query.Meaning

/-!
What merging with knowledge of a graph does to the meaning of queries. It loses nothing, and without
hoisting it adds nothing for objects that are where the graph says, as long as what nodes implement
are interfaces.
-/

namespace GraphQuery.Graph

def names (graph : Graph) : List String :=
  rootName :: (graph.nodes.keys ++ graph.interfaces.keys ++ graph.unions.keys)

def ImplementsNoNodes (graph : Graph) : Prop :=
  ∀ entry ∈ graph.nodes, ∀ name ∈ entry.2.implements, name ∈ graph.nodes.keys → name = entry.1

def IsAt (graph : Graph) (type : String) : Place → Prop
  | .root => type = rootName
  | .object name => type = name
  | .interface name => graph.isSubtype type name = true
  | .union name => graph.isSubtype type name = true
  | .unknown => True

def declares (graph : Graph) (name : String) : Bool :=
  (graph.node? name).isSome || (graph.interface? name).isSome || (graph.union? name).isSome

/-- Objects match those declared names that they are of; `others` holds of the other names. -/
def Matches (graph : Graph) (others : String → String → Prop) (type typeName : String) : Prop :=
  if graph.declares typeName then graph.isSubtype type typeName = true else others type typeName

variable {graph : Graph} {options : MergeOptions} {others : String → String → Prop}

theorem isSubtype_refl (graph : Graph) (type : String) : graph.isSubtype type type = true := by
  simp [isSubtype]

theorem matches_of_isSubtype
    (contains : ∀ type typeName, graph.isSubtype type typeName = true → others type typeName)
    {type typeName : String} (subtype : graph.isSubtype type typeName = true) :
    graph.Matches others type typeName := by
  rw [Matches]
  split
  · exact subtype
  · exact contains type typeName subtype

theorem treatmentUnderInterface_ne_expand (interface typeName : String) :
    graph.treatmentUnderInterface options interface typeName ≠ .expand := by
  intro treated
  rw [treatmentUnderInterface] at treated
  split at treated
  · cases treated
  · split at treated
    · split at treated <;> cases treated
    · split at treated
      · cases treated
      · split at treated <;> cases treated

def Covers (graph : Graph) (place : Place) (typeName : String) : Prop :=
  match place with
  | .root => rootName = typeName
  | .object node => graph.isSubtype node typeName = true
  | .interface name | .union name => name = typeName
  | .unknown => False

theorem treatment_eq_expand_iff {place : Place} {typeName : String} :
    graph.treatment options place typeName = .expand ↔ graph.Covers place typeName := by
  cases place with
  | root => by_cases same : rootName = typeName <;> simp [treatment, Covers, same]
  | object node =>
      by_cases same : graph.isSubtype node typeName = true <;> simp [treatment, Covers, same]
  | union union => by_cases same : union = typeName <;> simp [treatment, Covers, same]
  | unknown => simp [treatment, Covers]
  | interface interface =>
      by_cases same : interface = typeName
      · simp [treatment, Covers, same]
      · have kept : graph.treatmentUnderInterface options interface typeName ≠ .expand :=
          treatmentUnderInterface_ne_expand interface typeName
        by_cases hoists : options.hoistFields = true <;>
          simp [treatment, Covers, same, hoists, kept]

/-- A fragment is expanded at a place only if all objects there match its type name. -/
theorem matches_of_expand
    (contains : ∀ type typeName, graph.isSubtype type typeName = true → others type typeName)
    {type typeName : String} {place : Place} (here : graph.IsAt type place)
    (treated : graph.treatment options place typeName = .expand) :
    graph.Matches others type typeName := by
  refine matches_of_isSubtype contains ?_
  have covers := treatment_eq_expand_iff.mp treated
  cases place with
  | root =>
      obtain rfl : type = rootName := here
      obtain rfl : rootName = typeName := covers
      exact isSubtype_refl graph _
  | object node =>
      obtain rfl : type = node := here
      exact covers
  | interface name | union name =>
      obtain rfl : name = typeName := covers
      exact here
  | unknown => exact covers.elim

theorem treatment_ne_hoist (plain : options.hoistFields = false) (place : Place) (typeName : String)
    (shared : List String) : graph.treatment options place typeName ≠ .hoist shared := by
  intro treated
  cases place with
  | root | object _ | union _ =>
      simp only [treatment] at treated
      split at treated <;> cases treated
  | interface interface =>
      simp only [treatment, plain] at treated
      split at treated <;> simp at treated
  | unknown => cases treated

theorem isAt_placeNamed (apart : graph.names.Nodup) (implements : graph.ImplementsNoNodes)
    {type typeName : String} (here : graph.Matches others type typeName) :
    graph.IsAt type (graph.placeNamed typeName) := by
  rw [Matches, declares] at here
  rw [placeNamed]
  cases node : graph.node? typeName with
  | some declared =>
      -- a node has no name in common with a union or with what some node implements
      have known : typeName ∈ graph.nodes.keys := Entries.mem_keys_of_find? node
      simp only [node, Option.isSome_some, Bool.true_or, ↓reduceIte] at here ⊢
      simp only [isSubtype, Bool.or_eq_true, beq_iff_eq, Option.any_eq_true] at here
      rcases here with (same | ⟨own, found, listed⟩) | ⟨members, found, _⟩
      · exact same
      · have member : (type, own) ∈ graph.nodes := Entries.mem_of_find? found
        exact (implements _ member typeName (List.contains_iff_mem.mp listed) known).symm
      · have union : typeName ∈ graph.unions.keys := Entries.mem_keys_of_find? found
        have disjoint := (List.nodup_append.mp (List.nodup_cons.mp apart).2).2.2
        exact (disjoint typeName (List.mem_append_left _ known) typeName union rfl).elim
  | none =>
      cases interface : graph.interface? typeName with
      | some declared => simpa [node, interface, IsAt] using here
      | none =>
          cases union : graph.union? typeName with
          | some declared => simpa [node, interface, union, IsAt] using here
          | none => trivial

theorem faithful_mergePolicy (plain : options.hoistFields = false)
    (contains : ∀ type typeName, graph.isSubtype type typeName = true → others type typeName)
    (apart : graph.names.Nodup) (implements : graph.ImplementsNoNodes) :
    (graph.mergePolicy options).Faithful (graph.Matches others) graph.IsAt where
  exact := fun _ place here =>
    ⟨fun _ treated => matches_of_expand contains here treated, treatment_ne_hoist plain place⟩
  inside := fun _ _ _ _ here => isAt_placeNamed apart implements here

/--
Merging at a place of a graph loses nothing that queries select for objects there: the first object
of a path is at the place, and what a link leads to is where the graph says that it leads from every
place of its owner. Without hoisting merging adds nothing either, provided that nodes implement no
nodes.
-/
theorem mergeAt_selectsFor {place : Place} {queries : List Query} {merged : Query}
    (apart : graph.names.Nodup)
    (contains : ∀ type typeName, graph.isSubtype type typeName = true → others type typeName)
    (keyed : ∀ query ∈ queries, query.isKeyed = true)
    (done : graph.mergeAt options place queries = .ok merged) (path : List (String × Step))
    (starts : ∀ first ∈ path.head?, graph.IsAt first.1 place)
    (linked : path.IsChain fun first second => ∀ place, graph.IsAt first.1 place →
      graph.IsAt second.1 (graph.linkTarget place first.2.name)) :
    (∀ query ∈ queries, query.SelectsFor (graph.Matches others) path →
      merged.SelectsFor (graph.Matches others) path) ∧
    (options.hoistFields = false → graph.ImplementsNoNodes →
      merged.SelectsFor (graph.Matches others) path →
      ∃ query ∈ queries, query.SelectsFor (graph.Matches others) path) := by
  constructor
  · intro query member selects
    exact MergePolicy.selectsFor_merge rfl done member selects
  · intro plain implements selects
    exact MergePolicy.exists_selectsFor_of_merge rfl
      (faithful_mergePolicy plain contains apart implements) keyed done starts linked selects

def media : Graph where
  root := [("user", ⟨.named .type "User", []⟩)]
  nodes := [
    ("User", ⟨[("playlist", ⟨.sequence (.named .interface "Media"), []⟩)], []⟩),
    ("Audio", ⟨[("format", ⟨.string, []⟩)], ["Media"]⟩),
    ("Video", ⟨[("codec", ⟨.string, []⟩)], ["Media"]⟩)]
  interfaces := [("Media", [("duration", ⟨.integer, []⟩)])]
  unions := []

def played : Query :=
  .ofSelections [.link (.named "user") (.mk [] [.mk (some "User") (.ofSelections
    [.link (.named "playlist") (.mk []
      [.mk (some "Audio") (.ofSelections [.field (.named "format")]),
        .mk (some "Media") (.ofSelections [.field (.named "duration")])] false)])] false)]

def mergedPlayed : Query :=
  .ofSelections [.link (.named "user") (.ofSelections
    [.link (.named "playlist") (.mk [.field (.named "duration")]
      [.mk (some "Audio") (.ofSelections [.field (.named "format")])] false)])]

def playedPath : List (String × Step) :=
  [("Root", ⟨"user", "user", none⟩), ("User", ⟨"playlist", "playlist", none⟩),
    ("Audio", ⟨"format", "format", none⟩)]

/-- What has no supertype but itself is at its own place, or at one from which nothing leads on. -/
theorem isAt_linked {graph : Graph} {type next name : String}
    (alone : ∀ typeName, graph.isSubtype type typeName = true → type = typeName)
    (undeclared : graph.interface? type = none)
    (ofRoot : type = rootName → graph.IsAt next (graph.linkTarget .root name))
    (own : graph.IsAt next (graph.linkTarget (.object type) name)) (place : Place)
    (here : graph.IsAt type place) : graph.IsAt next (graph.linkTarget place name) := by
  cases place with
  | root => exact ofRoot here
  | object node =>
      obtain rfl : type = node := here
      exact own
  | interface interface =>
      obtain rfl := alone interface here
      simp [linkTarget, field?, undeclared, IsAt]
  | union union => trivial
  | unknown => trivial

theorem mergeAt_selectsFor_played :
    media.names.Nodup ∧ (∀ query ∈ [played], query.isKeyed = true) ∧
      media.mergeAt ⟨false, .keep⟩ .root [played] = .ok mergedPlayed ∧ media.ImplementsNoNodes ∧
      mergedPlayed.SelectsFor (media.Matches fun _ _ => True) playedPath ∧
      ∃ query ∈ [played], query.SelectsFor (media.Matches fun _ _ => True) playedPath := by
  have apart : media.names.Nodup := by decide
  have keyed : ∀ query ∈ [played], query.isKeyed = true := by decide
  have implements : media.ImplementsNoNodes := by
    simp [ImplementsNoNodes, media, Entries.keys]
  have linked : playedPath.IsChain fun first second => ∀ place, media.IsAt first.1 place →
      media.IsAt second.1 (media.linkTarget place first.2.name) := by
    refine List.isChain_cons_cons.mpr ⟨?_, List.isChain_cons_cons.mpr ⟨?_, .singleton _⟩⟩
    · refine isAt_linked (fun typeName subtype => ?_) rfl (fun _ => rfl) trivial
      simpa [isSubtype, media, node?, union?, Entries.find?_cons] using subtype
    · refine isAt_linked (fun typeName subtype => ?_) rfl (fun same => absurd same (by decide)) rfl
      simpa [isSubtype, media, node?, union?, Entries.find?_cons] using subtype
  have selects : mergedPlayed.SelectsFor (media.Matches fun _ _ => True) playedPath := by
    refine .link List.mem_cons_self rfl (.link List.mem_cons_self rfl ?_)
    refine .fragment List.mem_cons_self ?_ (.last List.mem_cons_self rfl)
    intro typeName same
    obtain rfl := Option.some.inj same
    exact rfl
  have done : media.mergeAt ⟨false, .keep⟩ .root [played] = .ok mergedPlayed := rfl
  have starts : ∀ first ∈ playedPath.head?, media.IsAt first.1 .root := by
    intro first found
    obtain rfl := Option.some.inj found
    exact rfl
  refine ⟨apart, keyed, done, implements, selects, ?_⟩
  exact (mergeAt_selectsFor apart (fun _ _ _ => trivial) keyed done playedPath starts linked).2
    rfl implements selects

def layered : Graph where
  root := []
  nodes := [("Audio", ⟨[], ["Track"]⟩), ("Track", ⟨[], ["Media"]⟩)]
  interfaces := [("Media", [("title", ⟨.string, []⟩)])]
  unions := []

def layeredTitle : Query :=
  .mk [] [.mk (some "Track") (.mk [] [.mk (some "Media")
    (.ofSelections [.field (.named "title")])] false)] false

def mergedLayeredTitle : Query :=
  .mk [] [.mk (some "Track") (.ofSelections [.field (.named "title")])] false

/-- A fragment on an interface, inside one on a node that implements it, is expanded there. This
adds its selections for objects of a node that implements that node but not the interface. -/
theorem mergeAt_adds_layered :
    layered.names.Nodup ∧ (∀ query ∈ [layeredTitle], query.isKeyed = true) ∧
      layered.mergeAt ⟨false, .keep⟩ .unknown [layeredTitle] = .ok mergedLayeredTitle ∧
      layered.IsAt "Audio" .unknown ∧
      mergedLayeredTitle.SelectsFor
        (layered.Matches fun type typeName => layered.isSubtype type typeName = true)
        [("Audio", ⟨"title", "title", none⟩)] ∧
      ¬ ∃ query ∈ [layeredTitle], query.SelectsFor
        (layered.Matches fun type typeName => layered.isSubtype type typeName = true)
        [("Audio", ⟨"title", "title", none⟩)] := by
  refine ⟨by decide, by decide, rfl, trivial, ?_, ?_⟩
  · refine .fragment List.mem_cons_self ?_ (.last List.mem_cons_self rfl)
    intro typeName same
    obtain rfl := Option.some.inj same
    exact rfl
  · rintro ⟨query, member, selects⟩
    obtain rfl := List.mem_singleton.mp member
    cases selects with
    | last inside _ | link inside _ _ => cases inside
    | fragment inside _ deeper =>
        obtain rfl := List.mem_singleton.mp inside
        cases deeper with
        | last inside _ | link inside _ _ => cases inside
        | fragment inside applies _ =>
            obtain rfl := List.mem_singleton.mp inside
            have audio : layered.isSubtype "Audio" "Media" = true := applies "Media" rfl
            cases audio

end GraphQuery.Graph
