import GraphQuery.Proofs.Graph.Meaning
import GraphQuery.Proofs.Query.Descent
import GraphQuery.Proofs.Query.Repetition

/-!
What every level of merged queries is like, whether or not they were merged against a graph. It is
in normal form, and it is ordered if a query is that was merged there, but not for the sake of a
fragment that was expanded there.
-/

namespace GraphQuery

def Query.AsksOrder (always : String → Prop) (queries : List Query) : Prop :=
  ∃ query ∈ queries, ∃ other, query.Expands always other ∧ other.ordered = true

/-- Whether none of some queries is ordered, but what is in one of their fragments that always apply
is. -/
def Query.LosesOrder (always : String → Prop) (queries : List Query) : Prop :=
  (∀ query ∈ queries, query.ordered = false) ∧ ∃ query ∈ queries, ∃ fragment ∈ query.fragments,
    (∀ typeName ∈ fragment.typeName?, always typeName) ∧
    ∃ other, fragment.query.Expands always other ∧ other.ordered = true

theorem MergePolicy.Level.asksOrder_iff {κ : Type} {policy : MergePolicy κ MergeError}
    {place there : κ} {queries given : List Query} {merged level : Query}
    (here : policy.Level place queries merged there given level)
    (joins : policy.combine = Slot.join) (done : policy.merge place queries = .ok merged)
    (always : String → Prop) :
    (level.ordered = true ↔ Query.AsksOrder always given) ↔ ¬ Query.LosesOrder always given := by
  rw [here.ordered_iff joins done]
  constructor
  · rintro same ⟨none, query, member, fragment, inside, applies, other, expands, ordered⟩
    obtain ⟨found, given, asked⟩ :=
      same.mpr ⟨query, member, other, .fragment inside applies expands, ordered⟩
    exact Bool.false_ne_true ((none found given).symm.trans asked)
  · refine fun kept => ⟨?_, ?_⟩
    · rintro ⟨query, member, ordered⟩
      exact ⟨query, member, query, .self, ordered⟩
    · rintro ⟨query, member, other, expands, ordered⟩
      by_contra none
      have unordered : ∀ query ∈ given, query.ordered = false := fun query member =>
        Bool.eq_false_iff.mpr fun asked => none ⟨query, member, asked⟩
      cases expands with
      | self => exact none ⟨query, member, ordered⟩
      | fragment inside applies deeper =>
          exact kept ⟨unordered, query, member, _, inside, applies, other, deeper, ordered⟩

namespace Graph

/--
On every level of what was merged each key and each type name stands once, the keys in the order in
which the selections that were gathered there show them first. Fragments are on type names and not
empty, and against a graph none is on a name that all objects match that are at the place of the
level.
-/
theorem level_normal (queries : List Query) :
    (∀ merged, Query.merge queries = .ok merged → ∀ there given level,
      (MergePolicy.plain Slot.join).Level () queries merged there given level →
      (MergePolicy.plain Slot.join).MergedLevel there level ∧
      level.selections.map Selection.resultKey =
        (((MergePolicy.plain Slot.join).selectionsAt there given).map
          Selection.resultKey).eraseDups) ∧
    ∀ (graph : Graph) options place merged,
      graph.mergeAt options place queries = .ok merged → ∀ there given level,
      (graph.mergePolicy options).Level place queries merged there given level →
      (graph.mergePolicy options).MergedLevel there level ∧
      level.selections.map Selection.resultKey =
        (((graph.mergePolicy options).selectionsAt there given).map
          Selection.resultKey).eraseDups ∧
      ∀ typeName inner, .mk (some typeName) inner ∈ level.fragments →
        ¬ graph.Covers there typeName := by
  constructor
  · intro merged done there given level here
    have merges := here.merges rfl done
    exact ⟨merges.level, merges.keys_eraseDups⟩
  · intro graph options place merged done there given level here
    have merges := here.merges rfl done
    refine ⟨merges.level, merges.keys_eraseDups, fun typeName inner member covers => ?_⟩
    exact merges.level.not_expanded typeName inner member (treatment_eq_expand_iff.mpr covers)

theorem level_normal_played :
    media.mergeAt .standard .root [played] = .ok mergedPlayed ∧
    ∃ given level,
      (media.mergePolicy .standard).Level .root [played] mergedPlayed (.interface "Media")
        given level ∧
      level.selections.map Selection.resultKey = ["duration"] ∧
      (media.mergePolicy .standard).MergedLevel (.interface "Media") level ∧
      ∀ typeName inner, .mk (some typeName) inner ∈ level.fragments →
        ¬ media.Covers (.interface "Media") typeName := by
  have done : media.mergeAt .standard .root [played] = .ok mergedPlayed := rfl
  have ofUser : (media.mergePolicy .standard).Level .root [played] mergedPlayed _ _ _ :=
    .link .top List.mem_cons_self
  have ofPlaylist : (media.mergePolicy .standard).Level .root [played] mergedPlayed _ _ _ :=
    .link ofUser List.mem_cons_self
  obtain ⟨shape, keys, uncovered⟩ := (level_normal [played]).2 _ _ _ _ done _ _ _ ofPlaylist
  exact ⟨done, _, _, ofPlaylist, keys, shape, uncovered⟩

/-- A level of what was merged is ordered exactly if a query is that was merged there. So it is as
ordered as was asked for, unless only fragments ask for that which are expanded there. -/
theorem level_ordered_iff (queries : List Query) :
    (∀ merged, Query.merge queries = .ok merged → ∀ there given level,
      (MergePolicy.plain Slot.join).Level () queries merged there given level →
      (level.ordered = true ↔ ∃ query ∈ given, query.ordered = true) ∧
      ((level.ordered = true ↔ Query.AsksOrder (fun _ => False) given) ↔
        ¬ Query.LosesOrder (fun _ => False) given)) ∧
    ∀ (graph : Graph) options place merged,
      graph.mergeAt options place queries = .ok merged → ∀ there given level,
      (graph.mergePolicy options).Level place queries merged there given level →
      (level.ordered = true ↔ ∃ query ∈ given, query.ordered = true) ∧
      ((level.ordered = true ↔ Query.AsksOrder (graph.Covers there) given) ↔
        ¬ Query.LosesOrder (graph.Covers there) given) := by
  constructor
  · intro merged done there given level here
    exact ⟨here.ordered_iff rfl done, here.asksOrder_iff rfl done _⟩
  · intro graph options place merged done there given level here
    exact ⟨here.ordered_iff rfl done, here.asksOrder_iff rfl done _⟩

theorem level_ordered_echoes : ∃ merged, Query.merge Query.echoes = .ok merged ∧
    ∃ given level, (MergePolicy.plain Slot.join).Level () Query.echoes merged () given level ∧
      level.ordered = true ∧ Query.AsksOrder (fun _ => False) given := by
  refine ⟨_, rfl, _, _, .link .top List.mem_cons_self, ?_⟩
  have below := (level_ordered_iff Query.echoes).1 _ rfl _ _ _ (.link .top List.mem_cons_self)
  have ordered := below.1.mpr ⟨_, List.mem_cons_self, rfl⟩
  refine ⟨ordered, (below.2.mpr fun loses => ?_).mp ordered⟩
  exact Bool.false_ne_true (loses.1 _ List.mem_cons_self).symm

def orderedTitle (typeName? : Option String) : Query :=
  .mk [] [.mk typeName? (.mk [.field (.named "title")] [] true)] false

/-- A fragment that is expanded where it always applies loses the order that it asks for. -/
theorem level_not_ordered :
    (∃ merged, Query.merge [orderedTitle none] = .ok merged ∧
      (MergePolicy.plain Slot.join).Level () [orderedTitle none] merged () [orderedTitle none]
        merged ∧
      ¬ (merged.ordered = true ↔ Query.AsksOrder (fun _ => False) [orderedTitle none])) ∧
    ∃ merged, media.mergeAt .standard (.object "User") [orderedTitle (some "User")] = .ok merged ∧
      (media.mergePolicy .standard).Level (.object "User") [orderedTitle (some "User")] merged
        (.object "User") [orderedTitle (some "User")] merged ∧
      ¬ (merged.ordered = true ↔
        Query.AsksOrder (media.Covers (.object "User")) [orderedTitle (some "User")]) := by
  have lost : ∀ (always : String → Prop) (typeName? : Option String),
      (∀ typeName ∈ typeName?, always typeName) →
      Query.AsksOrder always [orderedTitle typeName?] := by
    intro always typeName? applies
    exact ⟨_, List.mem_singleton_self _, _,
      .fragment (List.mem_singleton_self _) applies .self, rfl⟩
  refine ⟨⟨_, rfl, .top, fun same => ?_⟩, ⟨_, rfl, .top, fun same => ?_⟩⟩
  · cases same.mpr (lost _ none (fun _ found => by cases found))
  · have applies : ∀ typeName ∈ some "User", media.Covers (.object "User") typeName := by
      intro typeName found
      obtain rfl := Option.some.inj found
      exact isSubtype_refl media _
    cases same.mpr (lost _ _ applies)

end Graph

end GraphQuery
