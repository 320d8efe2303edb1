import GraphQuery.Proofs.Graph.Meaning
import GraphQuery.Proofs.Ty.Unfolding

/-!
Queries whose fragments are on names that do not occur in a graph. The graph tells nothing of them,
so merging them against it comes to what merging them without it comes to.
-/

namespace GraphQuery

inductive Query.HasFragmentOn : Query → String → Prop
  | here {query inner : Query} {typeName : String} :
      .mk (some typeName) inner ∈ query.fragments → HasFragmentOn query typeName
  | inFragment {query : Query} {fragment : Fragment} {typeName : String} :
      fragment ∈ query.fragments → HasFragmentOn fragment.query typeName →
      HasFragmentOn query typeName
  | underLink {query inner : Query} {head : Head} {typeName : String} :
      .link head inner ∈ query.selections → HasFragmentOn inner typeName →
      HasFragmentOn query typeName

namespace MergePolicy

variable {κ : Type} {policy : MergePolicy κ MergeError} {place : κ} {query : Query}
  {queries : List Query} {typeName : String}

/-- The names that the parts of a query are on, and those within the parts, are names in it. -/
theorem hasFragmentOn_of_part {part : Part}
    (member : part ∈ (plain Slot.join).parts () query)
    (names : part.typeName? = some typeName ∨
      ∃ inner, part.below? = some inner ∧ inner.HasFragmentOn typeName) :
    query.HasFragmentOn typeName := by
  induction query using Query.inductFragments with
  | step query ih =>
      rcases mem_parts_iff.mp member with ⟨selection, own, rfl⟩ | ⟨fragment, given, ofFragment⟩
      · obtain none | ⟨inner, below, found⟩ := names
        · cases none
        · cases selection with
          | field head => cases below
          | link head query =>
              obtain rfl := Option.some.inj below
              exact .underLink own found
      · cases ofFragment with
        | unconditional member => exact .inFragment given (ih _ given member)
        | kept _ =>
            obtain same | ⟨inner, below, found⟩ := names
            · obtain rfl := Option.some.inj same
              exact .here given
            · obtain rfl := Option.some.inj below
              exact .inFragment given found
        | expanded treated _ | hoisted treated _ _ | specific treated => cases treated

theorem parts_eq_plain
    (keep : ∀ typeName, query.HasFragmentOn typeName → policy.treatment place typeName = .keep) :
    policy.parts place query = (plain Slot.join).parts () query := by
  induction query using Query.inductFragments with
  | step query ih =>
      rw [parts_eq, parts_eq]
      congr 1
      refine List.flatMap_congr fun fragment member => ?_
      obtain ⟨_ | typeName, inner⟩ := fragment
      · exact ih _ member fun typeName found => keep typeName (.inFragment member found)
      · rw [partsOfFragment, partsOfFragment, keep typeName (.here member)]
        rfl

/-- A policy keeps the fragments on some names, at some places that it does not leave below links
nor in those fragments. -/
structure Keeps (policy : MergePolicy κ MergeError) (names : String → Prop)
    (places : κ → Prop) : Prop where
  treatment : ∀ place typeName, places place → names typeName →
    policy.treatment place typeName = .keep
  below : ∀ place name, places place → places (policy.below place name)
  inside : ∀ place typeName, places place → names typeName →
    places (policy.inside place typeName)

theorem Keeps.merge_eq {names : String → Prop} {places : κ → Prop}
    (keeps : policy.Keeps names places) (joins : policy.combine = Slot.join) (here : places place)
    (named : ∀ query ∈ queries, ∀ typeName, query.HasFragmentOn typeName → names typeName) :
    policy.merge place queries = (plain Slot.join).merge () queries := by
  -- the parts of one level are the same, and the places below it are again among those
  induction queries using Query.inductAll generalizing place with
  | step queries ih =>
      have parts : policy.partsAt place queries = (plain Slot.join).partsAt () queries :=
        List.flatMap_congr fun query member => parts_eq_plain fun typeName found =>
          keeps.treatment place typeName here (named query member typeName found)
      have inParts : ∀ part ∈ policy.partsAt place queries, ∀ typeName,
          (part.typeName? = some typeName ∨
            ∃ inner, part.below? = some inner ∧ inner.HasFragmentOn typeName) →
          names typeName := by
        intro part member typeName found
        obtain ⟨query, given, inside⟩ := List.mem_flatMap.mp (parts ▸ member)
        exact named query given typeName (hasFragmentOn_of_part inside found)
      rw [MergePolicy.merge_eq joins, MergePolicy.merge_eq rfl]
      refine mergeLevel_eq_of_parts joins rfl parts (fun name inners some each => ?_)
        fun typeName inners some each => ?_
      · refine ih inners (heightOfAll_lt_of_partsAt policy place some ?_)
          (keeps.below place name here) ?_
        · intro inner member
          obtain ⟨head, own⟩ := each inner member
          exact ⟨_, own, rfl⟩
        · intro inner member typeName found
          obtain ⟨head, own⟩ := each inner member
          exact inParts _ own typeName (.inr ⟨inner, rfl, found⟩)
      · obtain ⟨first, known⟩ := List.exists_mem_of_ne_nil inners some
        have isNamed := inParts _ (each first known) typeName (.inl rfl)
        refine ih inners (heightOfAll_lt_of_partsAt policy place some ?_)
          (keeps.inside place typeName here isNamed) ?_
        · exact fun inner member => ⟨_, each inner member, rfl⟩
        · intro inner member other found
          exact inParts _ (each inner member) other (.inr ⟨inner, rfl, found⟩)

end MergePolicy

/-! The names that occur in a graph -/

theorem Entries.mem_values_of_find? {α : Type} {entries : Entries α} {key : String} {value : α}
    (found : entries.find? key = some value) : value ∈ entries.values :=
  List.mem_map.mpr ⟨_, mem_of_find? found, rfl⟩

theorem Ty.named_mem_written {ty : Ty} {kind : NameKind} {name : String}
    (found : ty.target? = some (kind, name)) : .named kind name ∈ ty.written := by
  induction ty using Ty.induct with
  | step ty ih =>
      cases ty with
      | optional item | sequence item =>
          exact List.mem_cons_of_mem _ (ih item List.mem_cons_self found)
      | named kind name =>
          cases found
          exact List.mem_cons_self
      | _ => cases found

def Place.name? : Place → Option String
  | .object name | .interface name | .union name => some name
  | .root | .unknown => none

namespace Graph

def declaredFields (graph : Graph) : Entries FieldDef :=
  graph.root ++ graph.nodes.values.flatMap NodeDef.fields ++ graph.interfaces.values.flatten

/-- A name is declared in a graph, listed by a node among what it implements or by a union among its
members, or written in the type of a field. -/
inductive Mentions (graph : Graph) : String → Prop
  | declared {name : String} : graph.declares name = true → Mentions graph name
  | implemented {entry : String × NodeDef} {name : String} : entry ∈ graph.nodes →
      name ∈ entry.2.implements → Mentions graph name
  | member {entry : String × List String} {name : String} : entry ∈ graph.unions →
      name ∈ entry.2 → Mentions graph name
  | written {entry : String × FieldDef} {kind : NameKind} {name : String} :
      entry ∈ graph.declaredFields → .named kind name ∈ entry.2.ty.written → Mentions graph name

variable {graph : Graph} {options : MergeOptions} {place : Place} {name typeName : String}

theorem mem_declaredFields {field : FieldDef} (found : graph.field? place name = some field) :
    (name, field) ∈ graph.declaredFields := by
  have ofInterface : ∀ interface fields, graph.interface? interface = some fields →
      fields.find? name = some field → (name, field) ∈ graph.declaredFields :=
    fun interface fields declared own => List.mem_append_right _
      (List.mem_flatten.mpr ⟨fields, Entries.mem_values_of_find? declared, Entries.mem_of_find? own⟩)
  cases place with
  | root => exact List.mem_append_left _ (List.mem_append_left _ (Entries.mem_of_find? found))
  | object node =>
      simp only [field?, Option.bind_eq_bind, Option.bind_eq_some_iff] at found
      obtain ⟨declared, known, found⟩ := found
      rcases Option.or_eq_some_iff.mp found with own | ⟨_, inherited⟩
      · exact List.mem_append_left _ (List.mem_append_right _ (List.mem_flatMap.mpr
          ⟨declared, Entries.mem_values_of_find? known, Entries.mem_of_find? own⟩))
      · obtain ⟨fields, listed, own⟩ := List.exists_of_findSome?_eq_some inherited
        obtain ⟨interface, _, declaredToo⟩ := List.mem_filterMap.mp listed
        exact ofInterface interface fields declaredToo own
  | interface interface =>
      obtain ⟨fields, declared, own⟩ := Option.bind_eq_some_iff.mp found
      exact ofInterface interface fields declared own
  | union _ | unknown => cases found

theorem declares_of_placeNamed (found : (graph.placeNamed name).name? = some typeName) :
    name = typeName ∧ graph.declares name = true := by
  rw [placeNamed] at found
  rw [declares]
  split at found
  · exact ⟨Option.some.inj found, by simp [*]⟩
  · split at found
    · exact ⟨Option.some.inj found, by simp [*]⟩
    · split at found
      · exact ⟨Option.some.inj found, by simp [*]⟩
      · cases found

theorem mentions_of_linkTarget (found : (graph.linkTarget place name).name? = some typeName) :
    graph.Mentions typeName := by
  rw [linkTarget] at found
  cases target : (graph.field? place name).bind fun field => field.ty.target? with
  | none =>
      rw [target] at found
      cases found
  | some named =>
      obtain ⟨kind, leads⟩ := named
      obtain ⟨field, visible, points⟩ := Option.bind_eq_some_iff.mp target
      have written : graph.Mentions leads :=
        .written (mem_declaredFields visible) (Ty.named_mem_written points)
      rw [target] at found
      cases kind with
      | type => exact (declares_of_placeNamed found).1 ▸ written
      | interface | union => exact Option.some.inj found ▸ written

/-- A fragment on a name that does not occur in a graph is kept at every place of another name. -/
theorem treatment_eq_keep (absent : ¬ graph.Mentions typeName) (notRoot : typeName ≠ rootName)
    (elsewhere : place.name? ≠ some typeName) :
    graph.treatment options place typeName = .keep := by
  have undeclared : graph.declares typeName = false :=
    Bool.eq_false_iff.mpr fun declared => absent (.declared declared)
  simp only [declares, Bool.or_eq_false_iff, Option.isSome_eq_false_iff,
    Option.isNone_iff_eq_none] at undeclared
  obtain ⟨⟨notNode, notInterface⟩, notUnion⟩ := undeclared
  cases place with
  | root => exact if_neg fun same => notRoot same.symm
  | object node =>
      have different : node ≠ typeName := fun same => elsewhere (congrArg some same)
      refine if_neg fun subtype => ?_
      simp only [isSubtype, notUnion, Bool.or_eq_true, beq_iff_eq, different, Option.any_eq_true,
        Option.any_none, Bool.false_eq_true, false_or, or_false] at subtype
      obtain ⟨own, known, listed⟩ := subtype
      exact absent (.implemented (Entries.mem_of_find? known) (List.contains_iff_mem.mp listed))
  | interface interface =>
      have different : interface ≠ typeName := fun same => elsewhere (congrArg some same)
      rw [treatment, if_neg different, treatmentUnderInterface, notNode, notInterface]
      split
      · split <;> rfl
      · rfl
  | union union => exact if_neg fun same => elsewhere (congrArg some same)
  | unknown => rfl

/-- Queries whose fragments are unconditional or on names that do not occur in a graph, and that are
neither that of the root nor that of the place where the queries are made, merge against the graph
as they merge without it, or fail alike. -/
theorem mergeAt_eq_merge (graph : Graph) (options : MergeOptions) (place : Place)
    (queries : List Query)
    (unknown : ∀ query ∈ queries, ∀ typeName, query.HasFragmentOn typeName →
      ¬ graph.Mentions typeName ∧ typeName ≠ rootName ∧ place.name? ≠ some typeName) :
    graph.mergeAt options place queries = Query.merge queries := by
  have keeps : (graph.mergePolicy options).Keeps
      (fun typeName => ¬ graph.Mentions typeName ∧ typeName ≠ rootName ∧
        place.name? ≠ some typeName)
      (fun there => ∀ typeName, there.name? = some typeName → graph.Mentions typeName ∨
        place.name? = some typeName) := by
    refine ⟨?_, ?_, ?_⟩
    · rintro there typeName known ⟨absent, notRoot, elsewhere⟩
      exact treatment_eq_keep absent notRoot fun same =>
        (known typeName same).elim absent elsewhere
    · exact fun there name _ typeName found => .inl (mentions_of_linkTarget found)
    · intro there typeName _ _ other found
      obtain ⟨rfl, declared⟩ := declares_of_placeNamed found
      exact .inl (.declared declared)
  exact keeps.merge_eq rfl (fun _ => .inr) unknown

def podcasts (names : List String) (ofPodcasts : String) : Query :=
  .ofSelections [.link (.named "playlist") (.mk (names.map fun name => .field (.named name))
    [.mk (some "Podcast") (.ofSelections [.field (.named ofPodcasts)])] false)]

theorem not_mentions_podcast : ¬ media.Mentions "Podcast" := by
  intro mentions
  cases mentions with
  | declared declared => cases declared
  | implemented listed implements =>
      simp only [media, List.mem_cons, List.not_mem_nil, or_false] at listed
      rcases listed with rfl | rfl | rfl <;> simp at implements
  | member listed => cases listed
  | written listed written =>
      simp only [declaredFields, media, Entries.values, List.map_cons, List.map_nil,
        List.flatMap_cons, List.flatMap_nil, List.flatten_cons, List.flatten_nil, List.cons_append,
        List.nil_append, List.append_nil, List.mem_cons, List.not_mem_nil, or_false] at listed
      rcases listed with rfl | rfl | rfl | rfl | rfl <;> simp [Ty.written] at written

theorem eq_of_hasFragmentOn_podcasts {names : List String} {ofPodcasts typeName : String}
    (found : (podcasts names ofPodcasts).HasFragmentOn typeName) : typeName = "Podcast" := by
  cases found with
  | here inside | inFragment inside _ => cases inside
  | underLink inside found =>
      cases List.mem_singleton.mp inside
      cases found with
      | here inside =>
          cases List.mem_singleton.mp inside
          rfl
      | underLink inside _ => simp [Query.selections] at inside
      | inFragment inside found =>
          obtain rfl := List.mem_singleton.mp inside
          cases found with
          | here inside | inFragment inside _ => cases inside
          | underLink inside _ => cases List.mem_singleton.mp inside

theorem mergeAt_eq_merge_podcasts :
    (∀ query ∈ [podcasts [] "duration", podcasts ["duration"] "host"], ∀ typeName,
      query.HasFragmentOn typeName → ¬ media.Mentions typeName ∧ typeName ≠ rootName ∧
        (Place.object "User").name? ≠ some typeName) ∧
    media.mergeAt .standard (.object "User") [podcasts [] "duration", podcasts ["duration"] "host"] =
      Query.merge [podcasts [] "duration", podcasts ["duration"] "host"] := by
  have unknown : ∀ query ∈ [podcasts [] "duration", podcasts ["duration"] "host"], ∀ typeName,
      query.HasFragmentOn typeName → ¬ media.Mentions typeName ∧ typeName ≠ rootName ∧
        (Place.object "User").name? ≠ some typeName := by
    intro query member typeName found
    have same : typeName = "Podcast" := by
      simp only [List.mem_cons, List.not_mem_nil, or_false] at member
      rcases member with rfl | rfl <;> exact eq_of_hasFragmentOn_podcasts found
    subst same
    exact ⟨not_mentions_podcast, by decide, by decide⟩
  exact ⟨unknown, mergeAt_eq_merge media .standard (.object "User") _ unknown⟩

end Graph

end GraphQuery
