import GraphQuery.Proofs.Query.Remerging

/-!
Merging what was given twice, and merging what was merged. Neither changes the result, down to the
order of everything in it, and neither changes the error.
-/

namespace GraphQuery

/-- Entries under the same names stand side by side. -/
theorem Entries.aligned {α β : Type} (related : α → β → Prop) {entries : Entries α}
    {others : Entries β} (keys : entries.keys = others.keys) (nodup : entries.keys.Nodup)
    (each : ∀ key value other, entries.find? key = some value → others.find? key = some other →
      related value other) :
    List.Forall₂ (fun entry other => entry.1 = other.1 ∧ related entry.2 other.2)
      entries others := by
  induction entries generalizing others with
  | nil =>
      obtain rfl := List.map_eq_nil_iff.mp keys.symm
      exact .nil
  | cons entry rest ih =>
      obtain ⟨key, value⟩ := entry
      cases others with
      | nil => cases keys
      | cons otherEntry restToo =>
          obtain ⟨otherKey, other⟩ := otherEntry
          obtain ⟨rfl, keysRest⟩ := List.cons.inj keys
          obtain ⟨fresh, nodupRest⟩ := List.nodup_cons.mp nodup
          have here : related value other :=
            each key value other (by simp [find?_cons]) (by simp [find?_cons])
          refine .cons ⟨rfl, here⟩ (ih keysRest nodupRest ?_)
          intro found valueToo otherToo known knownToo
          have different : key ≠ found := by
            rintro rfl
            exact fresh (mem_keys_of_find? known)
          refine each found valueToo otherToo ?_ ?_
          · rw [find?_cons, if_neg different, known]
          · rw [find?_cons, if_neg different, knownToo]

/-! Directives that are there already -/

theorem unionDirectives_eq_self {directives others : List Directive}
    (known : ∀ directive ∈ others, ∃ found ∈ directives, (found == directive) = true) :
    unionDirectives directives others = directives := by
  induction others with
  | nil => rfl
  | cons directive rest ih =>
      have held : directives.any (· == directive) = true :=
        List.any_eq_true.mpr (known directive List.mem_cons_self)
      rw [unionDirectives, List.foldl_cons, if_pos held]
      exact ih fun other member => known other (List.mem_cons_of_mem _ member)

namespace Head

theorem joinedTo_append (head : Head) (selections more : List Selection) :
    head.joinedTo (selections ++ more) = (head.joinedTo selections).joinedTo more :=
  List.foldl_append

theorem joinedTo_eq_self {head : Head} {selections : List Selection}
    (known : ∀ selection ∈ selections, ∀ directive ∈ selection.head.directives,
      ∃ found ∈ head.directives, (found == directive) = true) :
    head.joinedTo selections = head := by
  induction selections with
  | nil => rfl
  | cons selection rest ih =>
      have here : head.addDirectives selection.head.directives = head := by
        rw [addDirectives, unionDirectives_eq_self (known selection List.mem_cons_self)]
      rw [joinedTo, List.foldl_cons, here]
      exact ih fun other member => known other (List.mem_cons_of_mem _ member)

/-- Joining a head and the same selections once more adds no directive. -/
theorem joinedTo_again {first : Selection} {rest : List Selection}
    (comparable : ∀ selection ∈ first :: rest, selection.head.isComparable = true) :
    first.head.joinedTo (rest ++ first :: rest) = first.head.joinedTo rest := by
  rw [joinedTo_append]
  refine joinedTo_eq_self fun selection member directive given => ?_
  have itself := directive_beq_self (comparable selection member) given
  rcases List.mem_cons.mp member with rfl | inside
  · exact ⟨directive, mem_directives_joinedTo _ rest given, itself⟩
  · exact exists_mem_directives_joinedTo first.head inside given itself

end Head

/-! Selections and groups that are gathered twice -/

namespace Selection

variable {selections : List Selection}

theorem Agreeing.append_self (agreeing : Agreeing selections)
    (comparable : ∀ selection ∈ selections, selection.head.isComparable = true) :
    Agreeing (selections ++ selections) := by
  intro key first rest split other member
  rw [under_append] at split
  cases once : under key selections with
  | nil =>
      rw [once] at split
      cases split
  | cons firstOnce restOnce =>
      rw [once, List.cons_append] at split
      obtain ⟨rfl, rfl⟩ := List.cons.inj split
      have means := agreeing key firstOnce restOnce once
      have given : firstOnce ∈ selections :=
        (mem_under_iff.mp (once ▸ List.mem_cons_self : firstOnce ∈ under key selections)).1
      have itself : firstOnce.agrees firstOnce = true :=
        agrees_iff.mpr ⟨rfl, Head.agrees_self (comparable firstOnce given)⟩
      rcases List.mem_append.mp member with member | member
      · exact means other member
      · rcases List.mem_cons.mp member with rfl | member
        · exact itself
        · exact means other member

end Selection

theorem Slot.keys_gather_append_self (selections : List Selection) :
    (gather (selections ++ selections)).keys = (gather selections).keys := by
  rw [keys_gather, keys_gather, List.map_append, eraseDups_append_of_known fun _ known => known]

theorem Part.keys_groups_append_self (parts : List Part) :
    (groups (parts ++ parts)).keys = (groups parts).keys := by
  rw [keys_groups, keys_groups, List.filterMap_append,
    eraseDups_append_of_known fun _ known => known]

namespace MergePolicy

variable {κ : Type} {policy : MergePolicy κ MergeError} {place : κ} {queries : List Query}

theorem partsAt_append (policy : MergePolicy κ MergeError) (place : κ) (queries more : List Query) :
    policy.partsAt place (queries ++ more) =
      policy.partsAt place queries ++ policy.partsAt place more :=
  List.flatMap_append

theorem selectionsAt_append (policy : MergePolicy κ MergeError) (place : κ)
    (queries more : List Query) : policy.selectionsAt place (queries ++ more) =
      policy.selectionsAt place queries ++ policy.selectionsAt place more := by
  rw [selectionsAt, partsAt_append, Part.selections_append]

theorem gatherAll_append_of_error {error : MergeError} (more : List Query)
    (failed : policy.gatherAll place queries = .error error) :
    policy.gatherAll place (queries ++ more) = .error error := by
  rw [gatherAll] at failed
  rw [gatherAll, List.foldlM_append, failed]
  rfl

/-- A slot that is filled twice with the same selections is finished as if it was filled once. -/
theorem finishSlot_twice {selections : List Selection} {slot twice : Slot}
    (heads : ∀ selection ∈ selections, selection.head.isComparable = true)
    (below : ∀ place, policy.merge place (selections.filterMap Selection.inner? ++
      selections.filterMap Selection.inner?) =
        policy.merge place (selections.filterMap Selection.inner?))
    (holds : slot.Holds selections) (holdsTwice : twice.Holds (selections ++ selections)) :
    policy.finishSlot place policy.merge twice = policy.finishSlot place policy.merge slot := by
  cases holds with
  | field head rest =>
      rw [List.cons_append] at holdsTwice
      have again : head.joinedTo (rest ++ .field head :: rest) = head.joinedTo rest :=
        Head.joinedTo_again heads
      cases holdsTwice with
      | field => rw [again]
  | link head query rest =>
      rw [List.cons_append] at holdsTwice
      have again : head.joinedTo (rest ++ .link head query :: rest) = head.joinedTo rest :=
        Head.joinedTo_again heads
      have inners : query :: (rest ++ .link head query :: rest).filterMap Selection.inner? =
          (query :: rest.filterMap Selection.inner?) ++ query :: rest.filterMap Selection.inner? :=
        congrArg (query :: ·) List.filterMap_append
      cases holdsTwice with
      | link =>
          rw [again, inners, finishSlot, finishSlot]
          exact congrArg (· >>= _) (below _)

section Comparable

variable (comparable : ∀ query ∈ queries, query.isComparable = true)

include comparable

theorem comparable_of_selectionsAt :
    ∀ selection ∈ policy.selectionsAt place queries, selection.head.isComparable = true :=
  fun _ member =>
    Selection.every_head (every_of_partsAt comparable (Part.mem_selections_iff.mp member))

theorem gatherAll_append_self (joins : policy.combine = Slot.join)
    (agreeing : Selection.Agreeing (policy.selectionsAt place queries)) :
    Selection.Agreeing (policy.selectionsAt place (queries ++ queries)) ∧
      policy.gatherAll place (queries ++ queries) =
        .ok (.ofParts (policy.partsAt place (queries ++ queries))) := by
  have twice := agreeing.append_self (comparable_of_selectionsAt comparable)
  rw [← selectionsAt_append] at twice
  rcases gatherAll_cases joins place (queries ++ queries) with done | ⟨_, _, clashing⟩
  · exact done
  · exact (clashing.not_agreeing twice).elim

section Level

variable (below : ∀ place inners, (∀ inner ∈ inners, inner.isComparable = true) →
    (inners ≠ [] → Query.heightOfAll inners < Query.heightOfAll queries) →
    policy.merge place (inners ++ inners) = policy.merge place inners)

include below

theorem finishSlots_twice (agreeing : Selection.Agreeing (policy.selectionsAt place queries))
    (agreeingTwice : Selection.Agreeing (policy.selectionsAt place (queries ++ queries))) :
    (Slot.gather (policy.selectionsAt place (queries ++ queries))).values.mapM
        (policy.finishSlot place policy.merge) =
      (Slot.gather (policy.selectionsAt place queries)).values.mapM
        (policy.finishSlot place policy.merge) := by
  rw [selectionsAt_append] at agreeingTwice ⊢
  have aligned := Entries.aligned
    (fun twice once => policy.finishSlot place policy.merge twice =
      policy.finishSlot place policy.merge once)
    (Slot.keys_gather_append_self (policy.selectionsAt place queries))
    (Slot.nodup_keys_gather _) ?_
  · rw [Entries.values, Entries.values]
    refine mapM_aligned ?_
    rw [List.forall₂_map_left_iff, List.forall₂_map_right_iff]
    exact aligned.imp fun _ _ held => held.2
  · intro key twice once foundTwice found
    have holdsTwice := Slot.holds_of_mem_gather agreeingTwice (Entries.mem_of_find? foundTwice)
    have holds := Slot.holds_of_mem_gather agreeing (Entries.mem_of_find? found)
    rw [Selection.under_append] at holdsTwice
    refine finishSlot_twice (fun selection inside => Selection.every_head
      (every_of_under comparable inside)) (fun there => ?_) holds holdsTwice
    refine below there _ (fun inner inside => every_of_inner comparable inside) fun some => ?_
    refine heightOfAll_lt_of_partsAt policy place some fun inner inside => ?_
    obtain ⟨head, under⟩ := Selection.mem_filterMap_inner?_iff.mp inside
    exact ⟨_, own_of_under under, rfl⟩

theorem finishGroups_twice :
    policy.finishGroups place policy.merge
        (Part.groups (policy.partsAt place (queries ++ queries))) =
      policy.finishGroups place policy.merge (Part.groups (policy.partsAt place queries)) := by
  rw [partsAt_append, finishGroups_eq, finishGroups_eq]
  have aligned := Entries.aligned
    (fun twice once => ∃ typeName,
      once = Part.queriesOn typeName (policy.partsAt place queries) ∧ twice = once ++ once)
    (Part.keys_groups_append_self (policy.partsAt place queries)) (Part.nodup_keys_groups _) ?_
  · refine congrArg (· >>= _) (mapM_aligned (aligned.imp ?_))
    rintro ⟨typeName, twice⟩ ⟨other, once⟩ ⟨sameName, name, same, doubled⟩
    simp only at sameName same doubled
    subst sameName doubled
    refine congrArg (· >>= _) (below _ _ ?_ ?_)
    · intro inner inside
      exact every_of_queriesOn comparable (same ▸ inside)
    · rintro some
      subst same
      exact heightOfAll_lt_of_queriesOn some
  · intro typeName twice once foundTwice found
    obtain rfl := Part.queries_of_mem_groups (Entries.mem_of_find? foundTwice)
    obtain rfl := Part.queries_of_mem_groups (Entries.mem_of_find? found)
    exact ⟨typeName, rfl, Part.queriesOn_append _ _ _⟩

end Level

/-- Queries that are given twice merge to what they merge to when given once, or fail alike. -/
theorem merge_append_self (joins : policy.combine = Slot.join) :
    policy.merge place (queries ++ queries) = policy.merge place queries := by
  induction queries using Query.inductAll generalizing place with
  | step queries ih =>
      have below : ∀ place inners, (∀ inner ∈ inners, inner.isComparable = true) →
          (inners ≠ [] → Query.heightOfAll inners < Query.heightOfAll queries) →
          policy.merge place (inners ++ inners) = policy.merge place inners := by
        intro place inners comparableToo lower
        by_cases none : inners = []
        · rw [none, List.append_nil]
        · exact ih inners (lower none) comparableToo
      rw [merge_eq joins, merge_eq joins, mergeLevel, mergeLevel]
      rcases gatherAll_cases joins place queries with ⟨agreeing, gathered⟩ | ⟨error, failed, _⟩
      · obtain ⟨agreeingTwice, gatheredTwice⟩ := gatherAll_append_self comparable joins agreeing
        have slots := finishSlots_twice comparable below agreeing agreeingTwice
        rw [gathered, gatheredTwice, ok_bind, ok_bind]
        simp only [Gathered.ofParts, List.any_append, Bool.or_self]
        rw [slots, finishGroups_twice comparable below]
      · rw [failed, gatherAll_append_of_error queries failed, error_bind, error_bind]

end Comparable

end MergePolicy

namespace Query

/-- Giving queries twice changes neither what they merge to nor the error, and what was merged
merges to itself, whatever its options and directives hold. -/
theorem merge_idempotent :
    (∀ queries : List Query, (∀ query ∈ queries, query.isKeyed = true) →
      (∀ query ∈ queries, query.isNaNFree = true) → merge (queries ++ queries) = merge queries) ∧
    ∀ queries merged, merge queries = .ok merged → merge [merged] = .ok merged := by
  constructor
  · intro queries keyed numbers
    refine MergePolicy.merge_append_self (fun query member => ?_) rfl
    exact every_and (keyed query member) (numbers query member)
  · intro queries merged done
    have hoisted := (MergePolicy.plain Slot.join).hoisted_of_untaken (fun _ _ _ => rfl) () merged
    exact MergePolicy.merge_of_hoisted rfl (MergePolicy.merged_of_merge rfl done) hoisted

def echoes : List Query :=
  [.mk [.link ⟨"track", none, none, [⟨"cached", []⟩]⟩ (.mk [.field (.named "title")]
      [.mk (some "Audio") .empty, .mk (some "Video") (.ofSelections [.field (.named "codec")])]
      true)] [] false,
    .mk [] [.mk none (.ofSelections [.link ⟨"track", none, none, [⟨"cached", []⟩, ⟨"live", []⟩]⟩
      (.ofSelections [.field (.named "title")])])] false]

def noise : List Query :=
  let gain : Directive := ⟨"gain", [("by", .float ⟨0x7ff8000000000000⟩)]⟩
  [.ofSelections [.field ⟨"pitch", none, none, [gain]⟩, .field ⟨"pitch", none, none, [gain]⟩]]

theorem merge_idempotent_echoes :
    (∀ query ∈ echoes, query.isKeyed = true) ∧ (∀ query ∈ echoes, query.isNaNFree = true) ∧
    merge (echoes ++ echoes) = merge echoes ∧
    ∃ merged, merge noise = .ok merged ∧ merge [merged] = .ok merged := by
  have keyed : ∀ query ∈ echoes, query.isKeyed = true := by decide
  have numbers : ∀ query ∈ echoes, query.isNaNFree = true := by decide
  exact ⟨keyed, numbers, merge_idempotent.1 echoes keyed numbers, _, rfl,
    merge_idempotent.2 noise _ rfl⟩

end Query

end GraphQuery
