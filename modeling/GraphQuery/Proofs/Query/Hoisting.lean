import GraphQuery.Proofs.Query.Merging

/-!
What hoisting puts at risk. Queries that merge as long as fragments are kept whole merge with
hoisting too, unless a selection that is hoisted collides with another one.
-/

namespace GraphQuery

namespace MergePolicy

section Parts

variable {κ ε : Type} {policy : MergePolicy κ ε} {place : κ} {query : Query} {queries : List Query}
  {typeName key : String}

/-- The same policy, but that it keeps those fragments whole out of which selections are hoisted. -/
def unhoisted (policy : MergePolicy κ ε) : MergePolicy κ ε where
  combine := policy.combine
  treatment place typeName :=
    match policy.treatment place typeName with
    | .hoist _ => .keep
    | treatment => treatment
  below := policy.below
  inside := policy.inside

def raise (policy : MergePolicy κ ε) (place : κ) : Part → List Part
  | .own selection => [.own selection]
  | .group typeName query => (policy.taken place typeName query).map .own ++
      [.group typeName (policy.remaining place typeName query)]

theorem partsOfFragment_unhoisted (kept : policy.treatment place typeName ≠ .expand) :
    policy.unhoisted.partsOfFragment place (.mk (some typeName) query) =
      [.group typeName query] := by
  rw [partsOfFragment, unhoisted]
  cases treated : policy.treatment place typeName with
  | expand => exact (kept treated).elim
  | keep => simp only [treated]
  | hoist shared => simp only [treated]

theorem partsOfFragment_expanded (treated : policy.treatment place typeName = .expand) :
    policy.partsOfFragment place (.mk (some typeName) query) = policy.parts place query := by
  rw [partsOfFragment]
  simp only [treated]

theorem unhoisted_expands (treated : policy.treatment place typeName = .expand) :
    policy.unhoisted.treatment place typeName = .expand := by
  simp only [unhoisted, treated]

theorem parts_eq_raise (policy : MergePolicy κ ε) (place : κ) (query : Query) :
    policy.parts place query =
      (policy.unhoisted.parts place query).flatMap (policy.raise place) := by
  induction query using Query.inductFragments with
  | step query ih =>
      rw [parts_eq, parts_eq, List.flatMap_append, List.flatMap_assoc]
      congr 1
      · rw [List.flatMap_map]
        exact List.map_eq_flatMap
      · refine List.flatMap_congr fun fragment member => ?_
        obtain ⟨_ | typeName, inner⟩ := fragment
        · exact ih _ member
        · by_cases treated : policy.treatment place typeName = .expand
          · rw [partsOfFragment_expanded treated,
              partsOfFragment_expanded (unhoisted_expands treated)]
            exact ih _ member
          · rw [partsOfFragment_eq treated, partsOfFragment_unhoisted treated,
              List.flatMap_singleton]
            rfl

theorem partsAt_eq_raise (policy : MergePolicy κ ε) (place : κ) (queries : List Query) :
    policy.partsAt place queries =
      (policy.unhoisted.partsAt place queries).flatMap (policy.raise place) := by
  rw [partsAt, partsAt, List.flatMap_assoc]
  exact List.flatMap_congr fun query _ => parts_eq_raise policy place query

def Hoists (policy : MergePolicy κ ε) (place : κ) (queries : List Query) (key : String) : Prop :=
  ∃ typeName query selection, .group typeName query ∈ policy.unhoisted.partsAt place queries ∧
    selection ∈ policy.taken place typeName query ∧ selection.resultKey = key

theorem selections_raise (part : Part) : Part.selections (policy.raise place part) =
    match part with
    | .own selection => [selection]
    | .group typeName query => policy.taken place typeName query := by
  cases part with
  | own selection => rfl
  | group typeName query =>
      rw [raise, Part.selections_append_group, Part.selections_map_own]

theorem queriesOn_raise (sought : String) (part : Part) :
    Part.queriesOn sought (policy.raise place part) =
      (Part.queriesOn sought [part]).map (policy.remaining place sought) := by
  cases part with
  | own selection => rfl
  | group typeName query =>
      rw [raise, Part.queriesOn_append, Part.queriesOn_map_own, List.nil_append,
        Part.queriesOn_cons_group, Part.queriesOn_cons_group]
      by_cases same : typeName = sought
      · subst same
        rw [if_pos rfl, if_pos rfl]
        rfl
      · rw [if_neg same, if_neg same]
        rfl

theorem under_eq_of_not_hoists (nothing : ¬ policy.Hoists place queries key) :
    Selection.under key (policy.selectionsAt place queries) =
      Selection.under key (policy.unhoisted.selectionsAt place queries) := by
  rw [selectionsAt, selectionsAt, partsAt_eq_raise]
  have absent : ∀ typeName query, .group typeName query ∈ policy.unhoisted.partsAt place queries →
      Selection.under key (policy.taken place typeName query) = [] := by
    intro typeName query member
    refine List.filter_eq_nil_iff.mpr fun selection taken same => nothing ?_
    exact ⟨typeName, query, selection, member, taken, beq_iff_eq.mp same⟩
  generalize policy.unhoisted.partsAt place queries = parts at absent
  induction parts with
  | nil => rfl
  | cons part rest ih =>
      have later := ih fun typeName query member =>
        absent typeName query (List.mem_cons_of_mem _ member)
      rw [List.flatMap_cons, Part.selections_append, Selection.under_append, selections_raise,
        later]
      cases part with
      | own selection => exact (Selection.under_append key [selection] _).symm
      | group typeName query =>
          rw [absent typeName query List.mem_cons_self]
          rfl

theorem queriesOn_eq_remaining (policy : MergePolicy κ ε) (place : κ) (queries : List Query)
    (typeName : String) : Part.queriesOn typeName (policy.partsAt place queries) =
      (Part.queriesOn typeName (policy.unhoisted.partsAt place queries)).map
        (policy.remaining place typeName) := by
  rw [partsAt_eq_raise]
  generalize policy.unhoisted.partsAt place queries = parts
  induction parts with
  | nil => rfl
  | cons part rest ih =>
      rw [List.flatMap_cons, Part.queriesOn_append, ih, queriesOn_raise, ← List.map_append,
        ← Part.queriesOn_append, List.singleton_append]

theorem parts_remaining_sublist (other : MergePolicy κ ε) (here : κ) :
    (other.parts here (policy.remaining place typeName query)).Sublist
      (other.parts here query) := by
  rw [remaining]
  split
  · rw [parts_eq, parts_eq]
    exact (List.filter_sublist.map _).append_right _
  · exact List.Sublist.refl _

theorem partsAt_sublist (policy : MergePolicy κ ε) (place : κ) {fewer : List Query}
    (sub : fewer.Sublist queries) :
    (policy.partsAt place fewer).Sublist (policy.partsAt place queries) := by
  induction sub with
  | slnil => exact List.Sublist.refl _
  | cons query _ ih => exact ih.trans (List.sublist_append_right _ _)
  | cons_cons query _ ih => exact ih.append_left _

theorem partsAt_remaining_sublist (other : MergePolicy κ ε) (here : κ) (queries : List Query) :
    (other.partsAt here (queries.map (policy.remaining place typeName))).Sublist
      (other.partsAt here queries) := by
  induction queries with
  | nil => exact List.Sublist.refl _
  | cons query rest ih => exact (parts_remaining_sublist other here).append ih

end Parts

section Clashes

variable {κ ε : Type} {policy : MergePolicy κ ε} {place : κ} {queries : List Query} {key : String}

inductive Clashes (policy : MergePolicy κ ε) : κ → List Query → Prop
  | here {place : κ} {queries : List Query} {key : String} {first other : Selection}
      {rest : List Selection} :
      Selection.under key (policy.selectionsAt place queries) = first :: rest → other ∈ rest →
      first.agrees other = false → Clashes policy place queries
  | link {place : κ} {queries : List Query} {key : String} {head : Head} {query : Query}
      {rest : List Selection} :
      Selection.under key (policy.selectionsAt place queries) = .link head query :: rest →
      Clashes policy (policy.below place head.name) (query :: rest.filterMap Selection.inner?) →
      Clashes policy place queries
  | fragment {place : κ} {queries : List Query} {typeName : String} :
      Clashes policy (policy.inside place typeName)
        (Part.queriesOn typeName (policy.partsAt place queries)) → Clashes policy place queries

/-- A clash of a selection that is hoisted, or below a link that is. -/
inductive HoistClashes (policy : MergePolicy κ ε) : κ → List Query → Prop
  | here {place : κ} {queries : List Query} {key : String} {first other : Selection}
      {rest : List Selection} : policy.Hoists place queries key →
      Selection.under key (policy.selectionsAt place queries) = first :: rest → other ∈ rest →
      first.agrees other = false → HoistClashes policy place queries
  | hoisted {place : κ} {queries : List Query} {key : String} {head : Head} {query : Query}
      {rest : List Selection} : policy.Hoists place queries key →
      Selection.under key (policy.selectionsAt place queries) = .link head query :: rest →
      policy.Clashes (policy.below place head.name) (query :: rest.filterMap Selection.inner?) →
      HoistClashes policy place queries
  | link {place : κ} {queries : List Query} {key : String} {head : Head} {query : Query}
      {rest : List Selection} :
      Selection.under key (policy.selectionsAt place queries) = .link head query :: rest →
      HoistClashes policy (policy.below place head.name)
        (query :: rest.filterMap Selection.inner?) → HoistClashes policy place queries
  | fragment {place : κ} {queries : List Query} {typeName : String} :
      HoistClashes policy (policy.inside place typeName)
        (Part.queriesOn typeName (policy.partsAt place queries)) →
      HoistClashes policy place queries

theorem HoistClashes.clashes (clashes : policy.HoistClashes place queries) :
    policy.Clashes place queries := by
  induction clashes with
  | here _ split member differs => exact .here split member differs
  | hoisted _ split clashes => exact .link split clashes
  | link split _ ih => exact .link split ih
  | fragment _ ih => exact .fragment ih

theorem agreeing_of_not_clashes (safe : ¬ policy.Clashes place queries) :
    Selection.Agreeing (policy.selectionsAt place queries) := by
  intro key first rest split other member
  by_contra differs
  exact safe (.here split member (Bool.not_eq_true _ ▸ differs))

section Keyed

variable (keyed : ∀ query ∈ queries, query.isKeyed = true)

include keyed

theorem isKeyed_of_selectionsAt :
    ∀ selection ∈ policy.selectionsAt place queries, selection.head.isKeyed = true :=
  fun _ member => Selection.every_head (every_of_partsAt keyed (Part.mem_selections_iff.mp member))

theorem isKeyed_of_under {selections : List Selection}
    (split : Selection.under key (policy.selectionsAt place queries) = selections) :
    ∀ inner ∈ selections.filterMap Selection.inner?, inner.isKeyed = true := by
  subst split
  exact fun inner member => every_of_inner keyed member

theorem Clashes.more {fewer : List Query} (clashes : policy.Clashes place fewer)
    (sub : (policy.partsAt place fewer).Sublist (policy.partsAt place queries)) :
    policy.Clashes place queries := by
  induction clashes generalizing queries with
  | @here place fewer key first other rest split member differs =>
      by_contra safe
      have agreeing := (agreeing_of_not_clashes safe).sublist (isKeyed_of_selectionsAt keyed)
        (sub.filterMap Part.own?)
      rw [agreeing key first rest split other member] at differs
      cases differs
  | @link place fewer key head query rest split _ ih =>
      by_contra safe
      have subUnder := (sub.filterMap Part.own?).filter fun selection => selection.resultKey == key
      change (Selection.under key (policy.selectionsAt place fewer)).Sublist _ at subUnder
      rw [split] at subUnder
      -- the first selection under the key may be another one, but it is a link of that name
      obtain ⟨headToo, queryToo, others, splitToo, name⟩ :=
        (agreeing_of_not_clashes safe).exists_link (subUnder.subset List.mem_cons_self)
      change List.Sublist _ (Selection.under key (policy.selectionsAt place queries)) at subUnder
      rw [splitToo] at subUnder
      rw [← name] at ih
      exact safe (.link splitToo (ih (isKeyed_of_under keyed splitToo)
        (partsAt_sublist policy _ (subUnder.filterMap Selection.inner?))))
  | @fragment place fewer typeName _ ih =>
      refine .fragment (ih (fun query member => every_of_queriesOn keyed member) ?_)
      exact partsAt_sublist policy _ (sub.filterMap _)

/-- Without a clash of what is kept whole, all clashes come of hoisting. -/
theorem Clashes.ofHoisting (clashes : policy.Clashes place queries)
    (safe : ¬ policy.unhoisted.Clashes place queries) : policy.HoistClashes place queries := by
  induction clashes with
  | @here place queries key first other rest split member differs =>
      by_cases hoists : policy.Hoists place queries key
      · exact .here hoists split member differs
      · rw [under_eq_of_not_hoists hoists] at split
        exact (safe (.here split member differs)).elim
  | @link place queries key head query rest split clashes ih =>
      by_cases hoists : policy.Hoists place queries key
      · exact .hoisted hoists split clashes
      · refine .link split (ih (isKeyed_of_under keyed split) fun inner => ?_)
        rw [under_eq_of_not_hoists hoists] at split
        exact safe (.link split inner)
  | @fragment place queries typeName _ ih =>
      have whole : ∀ query ∈ Part.queriesOn typeName (policy.unhoisted.partsAt place queries),
          query.isKeyed = true := fun query member => every_of_queriesOn keyed member
      refine .fragment (ih (fun query member => every_of_queriesOn keyed member) fun inner => ?_)
      rw [queriesOn_eq_remaining] at inner
      exact safe (.fragment (inner.more whole (partsAt_remaining_sublist _ _ _)))

end Keyed

end Clashes

section Joining

variable {κ : Type} {policy : MergePolicy κ MergeError} {place : κ} {queries : List Query}

theorem Clashes.not_merged (joins : policy.combine = Slot.join)
    (clashes : policy.Clashes place queries) :
    ∀ merged, policy.merge place queries ≠ .ok merged := by
  induction clashes with
  | here split member differs =>
      intro merged done
      have agreeing := (merges_of_merge joins done).agreeing
      rw [agreeing _ _ _ split _ member] at differs
      cases differs
  | link split _ ih =>
      intro merged done
      obtain ⟨inner, doneInner⟩ := (merges_of_merge joins done).exists_below split
      exact ih inner doneInner
  | @fragment place queries typeName _ ih =>
      intro merged done
      by_cases known : Part.queriesOn typeName (policy.partsAt place queries) = []
      · rw [known] at ih
        exact ih _ (merge_nil _)
      · obtain ⟨query, member⟩ := List.exists_mem_of_ne_nil _ known
        obtain ⟨inner, doneInner, _⟩ :=
          (merges_of_merge joins done).exists_inside (Part.mem_queriesOn_iff.mp member)
        exact ih inner doneInner

/-- Merging succeeds exactly when nothing clashes on any level. -/
theorem merge_ok_iff (joins : policy.combine = Slot.join) :
    (∃ merged, policy.merge place queries = .ok merged) ↔ ¬ policy.Clashes place queries := by
  constructor
  · exact fun ⟨merged, done⟩ clashes => clashes.not_merged joins merged done
  · intro safe
    induction queries using Query.inductAll generalizing place with
    | step queries ih =>
        cases done : policy.merge place queries with
        | ok merged => exact ⟨merged, rfl⟩
        | error error =>
            exfalso
            cases fails_of_merge joins done with
            | clash clashing => exact clashing.not_agreeing (agreeing_of_not_clashes safe)
            | below split failed =>
                obtain ⟨inner, doneInner⟩ :=
                  ih _ (heightOfAll_lt_of_under split) fun clashes => safe (.link split clashes)
                cases doneInner.symm.trans failed
            | @inside typeName _ failed =>
                by_cases known : Part.queriesOn typeName (policy.partsAt place queries) = []
                · rw [known, merge_nil] at failed
                  cases failed
                · obtain ⟨inner, doneInner⟩ :=
                    ih _ (heightOfAll_lt_of_queriesOn known) fun clashes => safe (.fragment clashes)
                  cases doneInner.symm.trans failed

/-- Queries that merge when fragments are kept whole merge with hoisting too, unless a selection
that is hoisted clashes. -/
theorem merge_ok_iff_of_unhoisted (joins : policy.combine = Slot.join)
    (keyed : ∀ query ∈ queries, query.isKeyed = true) {whole : Query}
    (done : policy.unhoisted.merge place queries = .ok whole) :
    (∃ merged, policy.merge place queries = .ok merged) ↔ ¬ policy.HoistClashes place queries := by
  have joinsWhole : policy.unhoisted.combine = Slot.join := joins
  have safe := (merge_ok_iff joinsWhole).mp ⟨whole, done⟩
  rw [merge_ok_iff joins]
  exact not_congr ⟨fun clashes => clashes.ofHoisting keyed safe, HoistClashes.clashes⟩

end Joining

end MergePolicy

end GraphQuery
