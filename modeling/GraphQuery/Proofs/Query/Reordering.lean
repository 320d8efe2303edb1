import GraphQuery.Proofs.Query.Alike
import GraphQuery.Proofs.Query.Merging
import GraphQuery.Graph.Merge

/-!
Merging does not depend on order. Queries that are alike come to parts that are alike at every
place, so that both or neither can be merged, and what they are merged to is alike again.
-/

namespace GraphQuery

/-! Parts that are alike -/

inductive Part.Alike : Part → Part → Prop
  | own {selection other : Selection} :
      Selection.Like Head.Alike Query.Alike selection other → Alike (.own selection) (.own other)
  | group {typeName : String} {query other : Query} :
      Query.Alike query other → Alike (.group typeName query) (.group typeName other)

section Parts

variable {κ ε : Type} {policy : MergePolicy κ ε} {place : κ} {query other : Query}
  {parts others : List Part}

theorem Part.paired_selections (paired : Paired Part.Alike parts others) :
    Paired (Selection.Like Head.Alike Query.Alike) (selections parts) (selections others) := by
  refine paired.filterMap ?_
  rintro _ _ (selection | query)
  · exact .some selection
  · exact .none

theorem Part.paired_queriesOn (paired : Paired Part.Alike parts others) (typeName : String) :
    Paired Query.Alike (queriesOn typeName parts) (queriesOn typeName others) := by
  refine paired.filterMap ?_
  rintro _ _ (selection | query)
  · exact .none
  · simp only [on?]
    split
    · exact .some query
    · exact .none

theorem Selection.contains_name_eq (shared : List String) (selection other : Selection)
    (alike : Selection.Like Head.Alike Query.Alike selection other) :
    shared.contains selection.name = shared.contains other.name := by
  rw [name, name, alike.head.name]

theorem MergePolicy.specific_alike (shared : List String) (alike : Query.Alike query other) :
    Query.Alike (specific shared query) (specific shared other) := by
  cases alike with
  | mk selections fragments =>
      refine .mk (selections.filter fun selection partner pair => ?_) fragments
      rw [Selection.contains_name_eq shared selection partner pair]

theorem MergePolicy.parts_alike (alike : Query.Alike query other) :
    Paired Part.Alike (policy.parts place query) (policy.parts place other) := by
  induction query using Query.inductFragments generalizing other with
  | step query ih =>
      cases alike with
      | mk selections fragments =>
          rw [parts_eq, parts_eq]
          refine (selections.map fun _ _ => .own).append (fragments.members.flatMap ?_)
          rintro _ _ ⟨member, _, @⟨typeName?, inner, innerToo, innerAlike⟩⟩
          cases typeName? with
          | none => exact ih _ member innerAlike
          | some typeName =>
              rw [partsOfFragment, partsOfFragment]
              cases policy.treatment place typeName with
              | expand => exact ih _ member innerAlike
              | keep => exact .single (.group innerAlike)
              | hoist shared =>
                  simp only [List.partition_eq_filter_filter]
                  refine .append ?_ (.single (.group (specific_alike shared innerAlike)))
                  have hoisted := innerAlike.selections.filter (Selection.contains_name_eq shared)
                  exact hoisted.map fun _ _ => .own

theorem MergePolicy.partsAt_alike {queries queriesToo : List Query}
    (alike : Paired Query.Alike queries queriesToo) :
    Paired Part.Alike (policy.partsAt place queries) (policy.partsAt place queriesToo) :=
  alike.flatMap fun _ _ => parts_alike

end Parts

/-! Selections that are alike -/

namespace Selection

variable {selections others : List Selection} {selection other : Selection} {key : String}
  {below : Query → Query → Prop}

theorem Like.agrees (alike : Selection.Like Head.Alike below selection other) :
    selection.agrees other = true :=
  agrees_iff.mpr ⟨alike.isLink_eq, alike.head.agrees⟩

theorem paired_under (paired : Paired (Selection.Like Head.Alike below) selections others)
    (key : String) :
    Paired (Selection.Like Head.Alike below) (under key selections) (under key others) := by
  refine paired.filter fun selection other pair => ?_
  rw [resultKey, resultKey, pair.head.resultKey]

theorem paired_inner (paired : Paired (Selection.Like Head.Alike below) selections others) :
    Paired below (selections.filterMap inner?) (others.filterMap inner?) := by
  refine paired.filterMap ?_
  rintro _ _ (head | ⟨head, inner⟩)
  · exact .none
  · exact .some inner

theorem agreeing_iff (comparable : ∀ selection ∈ selections, selection.head.isComparable = true) :
    Agreeing selections ↔ ∀ selection ∈ selections, ∀ other ∈ selections,
      selection.resultKey = other.resultKey → selection.agrees other = true := by
  constructor
  · intro agreeing selection member other memberToo same
    have here : selection ∈ under other.resultKey selections := mem_under_iff.mpr ⟨member, same⟩
    have there : other ∈ under other.resultKey selections := mem_under_iff.mpr ⟨memberToo, rfl⟩
    cases split : under other.resultKey selections with
    | nil =>
        rw [split] at here
        cases here
    | cons first rest =>
        have known : first ∈ selections := (mem_under_iff.mp (split ▸ List.mem_cons_self)).1
        have itself : first.agrees first = true :=
          agrees_iff.mpr ⟨rfl, Head.agrees_self (comparable first known)⟩
        have means : ∀ other ∈ first :: rest, first.agrees other = true :=
          List.forall_mem_cons.mpr ⟨itself, agreeing _ first rest split⟩
        have back := agrees_symm (Head.keyed_of_comparable (comparable first known))
          (Head.keyed_of_comparable (comparable selection member)) (means _ (split ▸ here))
        exact agrees_trans back (means _ (split ▸ there))
  · intro each key first rest split other member
    have inside : ∀ selection ∈ first :: rest, selection ∈ selections ∧ selection.resultKey = key :=
      fun selection member => mem_under_iff.mp (split ▸ member)
    have here := inside first List.mem_cons_self
    have there := inside other (List.mem_cons_of_mem _ member)
    exact each first here.1 other there.1 (here.2.trans there.2.symm)

section Paired

variable (paired : Paired (Selection.Like Head.Alike below) selections others)
  (comparable : ∀ selection ∈ selections, selection.head.isComparable = true)
  (comparableToo : ∀ other ∈ others, other.head.isComparable = true)

include paired comparable comparableToo

theorem agreeing_of_paired (agreeing : Agreeing selections) : Agreeing others := by
  rw [agreeing_iff comparable] at agreeing
  refine (agreeing_iff comparableToo).mpr fun other member last memberToo same => ?_
  obtain ⟨selection, inside, alike⟩ := paired.exists_left member
  obtain ⟨selectionToo, insideToo, alikeToo⟩ := paired.exists_left memberToo
  have sameKey : selection.resultKey = selectionToo.resultKey :=
    alike.head.resultKey.trans (same.trans alikeToo.head.resultKey.symm)
  have back := agrees_symm (Head.keyed_of_comparable (comparable selection inside))
    (Head.keyed_of_comparable (comparableToo other member)) alike.agrees
  exact agrees_trans back
    (agrees_trans (agreeing selection inside selectionToo insideToo sameKey) alikeToo.agrees)

omit comparable in
theorem agrees_of_paired (agreeing : Agreeing others) (member : selection ∈ selections)
    (memberToo : other ∈ others) (same : selection.resultKey = other.resultKey) :
    selection.agrees other = true := by
  rw [agreeing_iff comparableToo] at agreeing
  obtain ⟨partner, inside, alike⟩ := paired.exists_right member
  have sameKey := alike.head.resultKey.symm.trans same
  exact agrees_trans alike.agrees (agreeing partner inside other memberToo sameKey)

end Paired

end Selection

/-! Merging queries that are alike -/

structure Query.Interchangeable (queries others : List Query) : Prop where
  paired : Paired Query.Alike queries others
  comparable : ∀ query ∈ queries, query.isComparable = true
  comparableToo : ∀ other ∈ others, other.isComparable = true

def MergePolicy.Preserves {κ : Type} (policy : MergePolicy κ MergeError)
    (queries others : List Query) : Prop :=
  ∀ place merged, policy.merge place queries = .ok merged →
    ∃ mergedToo, policy.merge place others = .ok mergedToo ∧ Query.Alike merged mergedToo

namespace Query.Interchangeable

variable {κ : Type} {policy : MergePolicy κ MergeError} {place : κ} {queries others : List Query}
  {merged mergedToo : Query} {key : String} {selection other : Selection}

theorem selections (alike : Interchangeable queries others) (policy : MergePolicy κ MergeError)
    (place : κ) : Paired (Selection.Like Head.Alike Query.Alike)
      (policy.selectionsAt place queries) (policy.selectionsAt place others) :=
  Part.paired_selections (MergePolicy.partsAt_alike alike.paired)

theorem heads (comparable : ∀ query ∈ queries, query.isComparable = true) :
    ∀ selection ∈ policy.selectionsAt place queries, selection.head.isComparable = true :=
  fun _ member => Selection.every_head
    (MergePolicy.every_of_partsAt comparable (Part.mem_selections_iff.mp member))

theorem below (alike : Interchangeable queries others) (policy : MergePolicy κ MergeError)
    (place : κ) (key : String) : Interchangeable
      ((Selection.under key (policy.selectionsAt place queries)).filterMap Selection.inner?)
      ((Selection.under key (policy.selectionsAt place others)).filterMap Selection.inner?) where
  paired := Selection.paired_inner (Selection.paired_under (alike.selections policy place) key)
  comparable _ member := MergePolicy.every_of_inner alike.comparable member
  comparableToo _ member := MergePolicy.every_of_inner alike.comparableToo member

theorem inside (alike : Interchangeable queries others) (policy : MergePolicy κ MergeError)
    (place : κ) (typeName : String) : Interchangeable
      (Part.queriesOn typeName (policy.partsAt place queries))
      (Part.queriesOn typeName (policy.partsAt place others)) where
  paired := Part.paired_queriesOn (MergePolicy.partsAt_alike alike.paired) typeName
  comparable _ member := MergePolicy.every_of_queriesOn alike.comparable member
  comparableToo _ member := MergePolicy.every_of_queriesOn alike.comparableToo member

section Level

variable (alike : Interchangeable queries others)
  (lower : ∀ inners innersToo, Query.heightOfAll inners < Query.heightOfAll queries →
    Interchangeable inners innersToo → policy.Preserves inners innersToo)

include alike

theorem agreeing (merges : policy.Merges place queries merged) :
    Selection.Agreeing (policy.selectionsAt place others) :=
  Selection.agreeing_of_paired (alike.selections policy place) (heads alike.comparable)
    (heads alike.comparableToo) merges.agreeing

theorem agrees (merges : policy.Merges place queries merged)
    (under : selection ∈ Selection.under key (policy.selectionsAt place queries))
    (underToo : other ∈ Selection.under key (policy.selectionsAt place others)) :
    selection.agrees other = true := by
  rw [Selection.mem_under_iff] at under underToo
  exact Selection.agrees_of_paired (alike.selections policy place) (heads alike.comparableToo)
    (alike.agreeing merges) under.1 underToo.1 (under.2.trans underToo.2.symm)

include lower

theorem merge_below (merges : policy.Merges place queries merged) {head : Head} {query : Query}
    {rest : List Selection}
    (splitToo : Selection.under key (policy.selectionsAt place others) = .link head query :: rest) :
    ∃ inner, policy.merge (policy.below place head.name)
      (query :: rest.filterMap Selection.inner?) = .ok inner := by
  have inners := alike.below policy place key
  have link : .link head query ∈ Selection.under key (policy.selectionsAt place others) :=
    splitToo ▸ List.mem_cons_self
  have paired := Selection.paired_under (alike.selections policy place) key
  obtain ⟨selection, member, _⟩ := paired.exists_left link
  have known := Slot.mem_keys_gather_iff.mpr (List.ne_nil_of_mem member)
  obtain ⟨finished, _, finishes⟩ := exists_of_forall₂_left merges.selections known
  generalize split : Selection.under key (policy.selectionsAt place queries) = selections
    at finishes
  have means : ∀ selection ∈ selections, selection.agrees (.link head query) = true :=
    fun selection member => alike.agrees merges (split ▸ member) link
  cases finishes with
  | field first others => simp [Selection.agrees, Selection.isLink] at means
  | @link first firstQuery inner others done =>
      have same := (Selection.agrees_iff.mp (means _ List.mem_cons_self)).2
      have name : first.name = head.name := (Head.agrees_iff.mp same).1
      rw [split, splitToo] at inners
      have lowerHere := MergePolicy.heightOfAll_lt_of_under split
      obtain ⟨innerToo, doneToo, _⟩ := lower _ _ lowerHere inners _ _ done
      exact ⟨innerToo, name ▸ doneToo⟩

theorem merge_inside (merges : policy.Merges place queries merged) (typeName : String) :
    ∃ inner, policy.merge (policy.inside place typeName)
      (Part.queriesOn typeName (policy.partsAt place others)) = .ok inner := by
  have inners := alike.inside policy place typeName
  cases split : Part.queriesOn typeName (policy.partsAt place queries) with
  | nil =>
      rw [inners.paired.eq_nil_iff.mp split]
      exact ⟨_, MergePolicy.merge_nil _⟩
  | cons query rest =>
      have member : query ∈ Part.queriesOn typeName (policy.partsAt place queries) :=
        split ▸ List.mem_cons_self
      have lowerHere := MergePolicy.heightOfAll_lt_of_queriesOn (List.ne_nil_of_mem member)
      obtain ⟨inner, done, _⟩ := merges.exists_inside (Part.mem_queriesOn_iff.mp member)
      obtain ⟨innerToo, doneToo, _⟩ := lower _ _ lowerHere inners _ _ done
      exact ⟨innerToo, doneToo⟩

theorem not_fails (merges : policy.Merges place queries merged) {error : MergeError} :
    ¬ policy.Fails place others error := by
  intro fails
  cases fails with
  | clash clashing => exact clashing.not_agreeing (alike.agreeing merges)
  | below split failed =>
      obtain ⟨inner, done⟩ := alike.merge_below lower merges split
      cases failed.symm.trans done
  | inside failed =>
      obtain ⟨inner, done⟩ := alike.merge_inside lower merges _
      cases failed.symm.trans done

theorem inner_alike {head headToo : Head} {inner innerToo : Query}
    (finishes : policy.Finishes place
      (Selection.under key (policy.selectionsAt place queries)) (.link head inner))
    (finishesToo : policy.Finishes place
      (Selection.under key (policy.selectionsAt place others)) (.link headToo innerToo))
    (name : head.name = headToo.name) : Query.Alike inner innerToo := by
  obtain ⟨first, rest, split, kind, _⟩ := finishes.split
  cases first with
  | field _ => cases kind
  | link firstHead query =>
      have lowerHere := MergePolicy.heightOfAll_lt_of_under split
      have inners := alike.below policy place key
      rw [split] at finishes inners
      obtain ⟨found, again, innerAlike⟩ := lower _ _ lowerHere inners _ _ finishes.inner
      rw [name, finishesToo.inner] at again
      exact Except.ok.inj again ▸ innerAlike

omit lower in
theorem head_alike (merges : policy.Merges place queries merged)
    {finished finishedToo : Selection}
    (finishes : policy.Finishes place
      (Selection.under key (policy.selectionsAt place queries)) finished)
    (finishesToo : policy.Finishes place
      (Selection.under key (policy.selectionsAt place others)) finishedToo) :
    finished.head.Alike finishedToo.head ∧ finished.isLink = finishedToo.isLink := by
  obtain ⟨first, rest, split, kind, head⟩ := finishes.split
  obtain ⟨firstToo, restToo, splitToo, kindToo, headToo⟩ := finishesToo.split
  have paired := Selection.paired_under (alike.selections policy place) key
  have member : first ∈ Selection.under key (policy.selectionsAt place queries) :=
    split ▸ List.mem_cons_self
  have memberToo : firstToo ∈ Selection.under key (policy.selectionsAt place others) :=
    splitToo ▸ List.mem_cons_self
  have agrees := alike.agrees merges member memberToo
  have sameKey : first.resultKey = firstToo.resultKey :=
    (Selection.mem_under_iff.mp member).2.trans (Selection.mem_under_iff.mp memberToo).2.symm
  rw [split, splitToo] at paired
  rw [kind, kindToo, head, headToo]
  refine ⟨Head.alike_joinedTo paired ?_ ?_ sameKey agrees, (Selection.agrees_iff.mp agrees).1⟩
  · exact fun _ member => Selection.every_head
      (MergePolicy.every_of_under alike.comparable (split ▸ member))
  · exact fun _ member => Selection.every_head
      (MergePolicy.every_of_under alike.comparableToo (splitToo ▸ member))

theorem finished_alike (merges : policy.Merges place queries merged)
    {finished finishedToo : Selection}
    (finishes : policy.Finishes place
      (Selection.under key (policy.selectionsAt place queries)) finished)
    (finishesToo : policy.Finishes place
      (Selection.under key (policy.selectionsAt place others)) finishedToo) :
    Selection.Like Head.Alike Query.Alike finished finishedToo := by
  obtain ⟨heads, kind⟩ := alike.head_alike merges finishes finishesToo
  cases finished with
  | field head =>
      cases finishedToo with
      | field headToo => exact .field heads
      | link _ _ => cases kind
  | link head inner =>
      cases finishedToo with
      | field _ => cases kind
      | link headToo innerToo =>
          exact .link heads (alike.inner_alike lower finishes finishesToo heads.name)

/-- The merged selections are alike, whatever the order in which their keys were first seen. -/
theorem selections_alike (merges : policy.Merges place queries merged)
    (mergesToo : policy.Merges place others mergedToo) :
    Paired (Selection.Like Head.Alike Query.Alike) merged.selections mergedToo.selections := by
  refine .ofKeys Selection.resultKey Selection.resultKey ?_ ?_
  · refine (List.perm_ext_iff_of_nodup merges.nodup mergesToo.nodup).mpr fun key => ?_
    have paired := Selection.paired_under (alike.selections policy place) key
    rw [merges.keys_eq, mergesToo.keys_eq, Slot.mem_keys_gather_iff, Slot.mem_keys_gather_iff,
      ne_eq, ne_eq, paired.eq_nil_iff]
  · intro finished member finishedToo memberToo key
    exact alike.finished_alike lower merges (merges.finishes member)
      (key ▸ mergesToo.finishes memberToo)

theorem fragments_alike (merges : policy.Merges place queries merged)
    (mergesToo : policy.Merges place others mergedToo) :
    Paired (Fragment.Like Query.Alike) merged.fragments mergedToo.fragments := by
  obtain ⟨fragments, aligned, same⟩ := merges.fragments
  obtain ⟨fragmentsToo, alignedToo, sameToo⟩ := mergesToo.fragments
  have inners := alike.inside policy place
  rw [same, sameToo]
  -- groups are paired before the empty ones are dropped: those alike are empty together
  refine .filter ?_ (.ofKeys Fragment.typeName? Fragment.typeName? ?_ ?_)
  · rintro _ _ ⟨inner⟩
    exact congrArg not inner.isEmpty_eq
  · rw [MergePolicy.typeNames_of_finishesGroup aligned,
      MergePolicy.typeNames_of_finishesGroup alignedToo]
    refine List.Perm.map some ((List.perm_ext_iff_of_nodup (Part.nodup_keys_groups _)
      (Part.nodup_keys_groups _)).mpr fun typeName => ?_)
    rw [Part.mem_keys_groups_iff, Part.mem_keys_groups_iff, ne_eq, ne_eq,
      (inners typeName).paired.eq_nil_iff]
  · intro fragment member fragmentToo memberToo sameName
    obtain ⟨typeName, known, finishes⟩ := exists_of_forall₂_right aligned member
    obtain ⟨_, _, finishesToo⟩ := exists_of_forall₂_right alignedToo memberToo
    cases finishes with
    | mk done =>
        cases finishesToo with
        | mk doneToo =>
            obtain rfl := Option.some.inj sameName
            have lowerHere :=
              MergePolicy.heightOfAll_lt_of_queriesOn (Part.mem_keys_groups_iff.mp known)
            obtain ⟨found, again, innerAlike⟩ := lower _ _ lowerHere (inners _) _ _ done
            rw [doneToo] at again
            obtain rfl := Except.ok.inj again
            exact .mk innerAlike

theorem merged_alike (merges : policy.Merges place queries merged)
    (mergesToo : policy.Merges place others mergedToo) : Query.Alike merged mergedToo := by
  have selections := alike.selections_alike lower merges mergesToo
  have fragments := alike.fragments_alike lower merges mergesToo
  have ordered : merged.ordered = mergedToo.ordered := by
    rw [merges.ordered, mergesToo.ordered]
    exact alike.paired.any_eq fun _ _ pair => pair.ordered_eq
  obtain ⟨_, _, _⟩ := merged
  obtain ⟨_, _, _⟩ := mergedToo
  obtain rfl := ordered
  exact .mk selections fragments

end Level

theorem preserves (joins : policy.combine = Slot.join) (alike : Interchangeable queries others) :
    policy.Preserves queries others := by
  induction queries using Query.inductAll generalizing others with
  | step queries ih =>
      intro place merged done
      have merges := MergePolicy.merges_of_merge joins done
      have lower := fun inners innersToo below (alike : Interchangeable inners innersToo) =>
        ih inners below alike
      cases doneToo : policy.merge place others with
      | error error =>
          exact (alike.not_fails lower merges (MergePolicy.fails_of_merge joins doneToo)).elim
      | ok mergedToo =>
          have mergesToo := MergePolicy.merges_of_merge joins doneToo
          exact ⟨mergedToo, rfl, alike.merged_alike lower merges mergesToo⟩

end Query.Interchangeable

/-! Queries in another order -/

inductive MergedAlike : Except MergeError Query → Except MergeError Query → Prop
  | failed (error other : MergeError) : MergedAlike (.error error) (.error other)
  | merged {query other : Query} : Query.Alike query other → MergedAlike (.ok query) (.ok other)

section Reordered

variable {queries others : List Query}

theorem Query.Reordered.interchangeable (reordered : Paired Query.Reordered queries others)
    (comparable : ∀ query ∈ queries, query.isComparable = true) :
    Query.Interchangeable queries others where
  paired := reordered.members.imp fun _ _ pair => pair.2.2.alike (comparable _ pair.1)
  comparable := comparable
  comparableToo other member := by
    obtain ⟨query, given, pair⟩ := reordered.exists_left member
    refine pair.every ?_ (comparable query given)
    rintro head _ rfl passes
    exact passes

theorem Query.Reordered.flip (reordered : Paired Query.Reordered queries others) :
    Paired Query.Reordered others queries :=
  reordered.symm.imp fun _ _ pair => pair.symm fun _ _ same => same.symm

theorem MergePolicy.mergedAlike_of_reordered {κ : Type} {policy : MergePolicy κ MergeError}
    (joins : policy.combine = Slot.join) (reordered : Paired Query.Reordered queries others)
    (comparable : ∀ query ∈ queries, query.isComparable = true) (place : κ) :
    MergedAlike (policy.merge place queries) (policy.merge place others) := by
  have alike := Query.Reordered.interchangeable reordered comparable
  have back := Query.Reordered.interchangeable (Query.Reordered.flip reordered) alike.comparableToo
  cases done : policy.merge place queries with
  | ok merged =>
      obtain ⟨mergedToo, doneToo, mergedAlike⟩ := alike.preserves joins place merged done
      rw [doneToo]
      exact .merged mergedAlike
  | error error =>
      -- reordering goes both ways, so the other order cannot succeed alone
      cases doneToo : policy.merge place others with
      | error other => exact .failed error other
      | ok mergedToo =>
          obtain ⟨merged, again, _⟩ := back.preserves joins place mergedToo doneToo
          cases done.symm.trans again

/-- Whatever the order of queries, and of selections and fragments on every level of them, both
orders or neither can be merged, with or without a graph, and the merged queries are alike. -/
theorem Query.merge_reordered (reordered : Paired Query.Reordered queries others)
    (keyed : ∀ query ∈ queries, query.isKeyed = true)
    (numbers : ∀ query ∈ queries, query.isNaNFree = true) :
    MergedAlike (Query.merge queries) (Query.merge others) ∧
      ∀ (graph : Graph) (options : MergeOptions) (place : Place),
        MergedAlike (graph.mergeAt options place queries) (graph.mergeAt options place others) := by
  have comparable : ∀ query ∈ queries, query.isComparable = true :=
    fun query member => every_and (keyed query member) (numbers query member)
  constructor
  · exact MergePolicy.mergedAlike_of_reordered rfl reordered comparable ()
  · intro graph options place
    exact MergePolicy.mergedAlike_of_reordered rfl reordered comparable place

end Reordered

def Query.spelledOut : Query :=
  .mk [.field ⟨"id", some "id", none, []⟩, .field (.named "title")]
    [.mk (some "Audio") (.ofSelections [.field (.named "format")]),
      .mk none (.ofSelections [.field (.named "format")])] false

def Query.spelledBack : Query :=
  .mk [.field (.named "title"), .field ⟨"id", some "id", none, []⟩]
    [.mk none (.ofSelections [.field (.named "format")]),
      .mk (some "Audio") (.ofSelections [.field (.named "format")])] false

def Query.plainId : Query :=
  .ofSelections [.field (.named "id")]

theorem Query.merge_reordered_ids :
    Paired Query.Reordered [spelledOut, plainId] [plainId, spelledBack] ∧
      (∀ query ∈ [spelledOut, plainId], query.isKeyed = true) ∧
      (∀ query ∈ [spelledOut, plainId], query.isNaNFree = true) ∧
      MergedAlike (Query.merge [spelledOut, plainId]) (Query.merge [plainId, spelledBack]) := by
  have plain : Query.Reordered plainId plainId := .mk (.single (.field rfl)) .nil
  have format : Query.Reordered (.ofSelections [.field (.named "format")])
      (.ofSelections [.field (.named "format")]) := .mk (.single (.field rfl)) .nil
  have spelled : Query.Reordered spelledOut spelledBack :=
    .mk (.perm (.cons (.field rfl) (.single (.field rfl))) (.swap _ _ _))
      (.perm (.cons (.mk format) (.single (.mk format))) (.swap _ _ _))
  have reordered : Paired Query.Reordered [spelledOut, plainId] [plainId, spelledBack] :=
    .perm (.cons spelled (.single plain)) (.swap _ _ _)
  have keyed : ∀ query ∈ [spelledOut, plainId], query.isKeyed = true := by decide
  have numbers : ∀ query ∈ [spelledOut, plainId], query.isNaNFree = true := by decide
  exact ⟨reordered, keyed, numbers, (merge_reordered reordered keyed numbers).1⟩

end GraphQuery
