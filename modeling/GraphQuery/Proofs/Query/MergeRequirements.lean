import GraphQuery.Proofs.Except
import GraphQuery.Proofs.Query.Height
import GraphQuery.Proofs.Query.Selects
import GraphQuery.Query.Merge
import Mathlib.Data.List.Induction

/-!
Merged requirements select what the requirements select, a label once on every level.
-/

namespace GraphQuery

namespace Requirement

def absorbing : MergePolicy Unit Empty :=
  .plain fun slot selection => .ok (slot.absorb selection)

/-! What is gathered under each label -/

def absorbInto (slots : Entries Slot) (selection : Selection) : Entries Slot :=
  match slots.find? selection.resultKey with
  | none => slots.insert selection.resultKey (.ofSelection selection)
  | some slot => slots.insert selection.resultKey (slot.absorb selection)

theorem add_eq (gathered : Gathered) (selection : Selection) :
    gathered.add absorbing.combine selection =
      .ok { gathered with slots := absorbInto gathered.slots selection } := by
  simp only [Gathered.add, absorbInto, absorbing, MergePolicy.plain]
  split <;> simp_all

theorem addAll_eq (gathered : Gathered) (selections : List Selection) :
    gathered.addAll absorbing.combine selections =
      .ok { gathered with slots := selections.foldl absorbInto gathered.slots } := by
  induction selections generalizing gathered with
  | nil => rfl
  | cons selection rest ih =>
      simp only [Gathered.addAll, List.foldlM_cons, add_eq, ok_bind]
      exact ih _

theorem gatherAll_eq {queries : List Query} (plain : ∀ query ∈ queries, query.Plain) :
    absorbing.gatherAll () queries =
      .ok ⟨(queries.flatMap Query.selections).foldl absorbInto [], []⟩ := by
  have onto : ∀ gathered : Gathered,
      queries.foldlM (fun gathered query => absorbing.gather () query gathered) gathered =
        .ok { gathered with
          slots := (queries.flatMap Query.selections).foldl absorbInto gathered.slots } := by
    induction queries with
    | nil => intro gathered; rfl
    | cons query rest ih =>
        intro gathered
        have gathers : absorbing.gather () query gathered =
            .ok { gathered with slots := query.selections.foldl absorbInto gathered.slots } := by
          have whole := plain query List.mem_cons_self
          obtain ⟨selections, fragments, ordered⟩ := query
          obtain rfl : fragments = [] := whole.fragments_eq
          simp only [MergePolicy.gather, addAll_eq, ok_bind, MergePolicy.gatherFragments,
            Query.selections]
        rw [List.foldlM_cons, gathers, ok_bind,
          ih (fun other member => plain other (List.mem_cons_of_mem query member))]
        simp [List.foldl_append]
  exact onto .empty

def Collects (selections : List Selection) (name : String) : Option Slot → Prop
  | none => ∀ selection ∈ selections, selection.name ≠ name
  | some (.field head) => head = .named name ∧ (∃ selection ∈ selections, selection.name = name) ∧
      ∀ inner, .link (.named name) inner ∉ selections
  | some (.link head queries) => head = .named name ∧ queries ≠ [] ∧
      ∀ inner, inner ∈ queries ↔ .link (.named name) inner ∈ selections

theorem Collects.other {selections : List Selection} {name : String} {slot? : Option Slot}
    (collects : Collects selections name slot?) {selection : Selection}
    (different : selection.name ≠ name) : Collects (selections ++ [selection]) name slot? := by
  have apart : ∀ inner, Selection.link (.named name) inner ≠ selection := by
    rintro inner rfl
    exact different rfl
  match slot? with
  | none =>
      intro other member
      rcases List.mem_append.mp member with member | member
      · exact collects other member
      · simp only [List.mem_singleton] at member
        exact member ▸ different
  | some (.field head) =>
      obtain ⟨named, ⟨other, member, same⟩, fields⟩ := collects
      refine ⟨named, ⟨other, List.mem_append_left _ member, same⟩, ?_⟩
      intro inner memberInner
      simp only [List.mem_append, List.mem_singleton, apart inner, or_false] at memberInner
      exact fields inner memberInner
  | some (.link head queries) =>
      obtain ⟨named, some, links⟩ := collects
      refine ⟨named, some, ?_⟩
      intro inner
      simp only [List.mem_append, List.mem_singleton, apart inner, or_false]
      exact links inner

theorem Collects.first {selections : List Selection} {selection : Selection}
    (collects : Collects selections selection.name none)
    (named : selection.head = .named selection.name) :
    Collects (selections ++ [selection]) selection.name (some (.ofSelection selection)) := by
  have absent : ∀ inner, Selection.link (.named selection.name) inner ∉ selections :=
    fun inner member => collects _ member rfl
  cases selection with
  | field head =>
      refine ⟨named, ⟨.field head, by simp, rfl⟩, ?_⟩
      intro inner member
      simp only [List.mem_append, List.mem_singleton, reduceCtorEq, or_false] at member
      exact absent inner member
  | link head query =>
      refine ⟨named, by simp, ?_⟩
      intro inner
      have head_eq : Head.named (Selection.link head query).name = head := named.symm
      simp only [List.mem_append, List.mem_singleton, absent inner, false_or]
      simp [head_eq]

theorem addDirectives_nil (head : Head) : head.addDirectives [] = head := rfl

theorem Collects.absorb {selections : List Selection} {selection : Selection} {slot : Slot}
    (collects : Collects selections selection.name (some slot))
    (named : selection.head = .named selection.name) :
    Collects (selections ++ [selection]) selection.name (some (slot.absorb selection)) := by
  have undirected : selection.head.directives = [] := by rw [named]; rfl
  cases slot with
  | field head =>
      obtain ⟨headNamed, ⟨other, member, same⟩, fields⟩ := collects
      cases selection with
      | field headToo =>
          simp only [Selection.head] at undirected
          refine ⟨by simpa [undirected, addDirectives_nil] using headNamed,
            ⟨other, List.mem_append_left _ member, same⟩, ?_⟩
          intro inner memberInner
          simp only [List.mem_append, List.mem_singleton, reduceCtorEq, or_false] at memberInner
          exact fields inner memberInner
      | link headToo query =>
          refine ⟨named, by simp, ?_⟩
          intro inner
          have head_eq : Head.named (Selection.link headToo query).name = headToo := named.symm
          simp only [List.mem_append, List.mem_singleton, fields inner, false_or]
          simp [head_eq]
  | link head queries =>
      obtain ⟨headNamed, some, links⟩ := collects
      cases selection with
      | field headToo =>
          refine ⟨headNamed, some, ?_⟩
          intro inner
          simp only [List.mem_append, List.mem_singleton, reduceCtorEq, or_false]
          exact links inner
      | link headToo query =>
          simp only [Selection.head] at undirected
          refine ⟨by simpa [undirected, addDirectives_nil] using headNamed, by simp, ?_⟩
          intro inner
          have head_eq : Head.named (Selection.link headToo query).name = headToo := named.symm
          simp only [List.mem_append, List.mem_singleton, links inner]
          simp [head_eq]

structure Holding (selections : List Selection) (slots : Entries Slot) : Prop where
  nodup : slots.keys.Nodup
  collects : ∀ name, Collects selections name (slots.find? name)

theorem Holding.step {selections : List Selection} {slots : Entries Slot}
    (holding : Holding selections slots) {selection : Selection}
    (named : selection.head = .named selection.name) :
    Holding (selections ++ [selection]) (absorbInto slots selection) := by
  have key : selection.resultKey = selection.name := by
    simp [Selection.resultKey, named, Head.resultKey, Head.named]
  have before := holding.collects selection.name
  have inserts : ∃ slot, absorbInto slots selection = slots.insert selection.name slot ∧
      Collects (selections ++ [selection]) selection.name (some slot) := by
    simp only [absorbInto, key]
    cases found : slots.find? selection.name with
    | none => exact ⟨_, rfl, (found ▸ before).first named⟩
    | some slot => exact ⟨_, rfl, (found ▸ before).absorb named⟩
  obtain ⟨slot, made, collects⟩ := inserts
  rw [made]
  refine ⟨?_, ?_⟩
  · rw [Entries.keys_insert]
    split
    · exact holding.nodup
    · rename_i fresh
      refine List.nodup_append.mpr ⟨holding.nodup, List.nodup_singleton _, ?_⟩
      rintro name member other single rfl
      exact fresh (List.mem_singleton.mp single ▸ member)
  · intro name
    rw [Entries.find?_insert]
    split
    · rename_i same
      exact same ▸ collects
    · rename_i different
      exact (holding.collects name).other different

theorem holding_foldl {selections : List Selection}
    (named : ∀ selection ∈ selections, selection.head = .named selection.name) :
    Holding selections (selections.foldl absorbInto []) := by
  induction selections using List.reverseRecOn with
  | nil => exact ⟨List.nodup_nil, fun name => by simp [Collects]⟩
  | append_singleton selections selection ih =>
      rw [List.foldl_append]
      exact (ih fun other member => named other (List.mem_append_left _ member)).step
        (named selection (by simp))

/-! What becomes of the slots -/

structure Merges (queries : List Query) (merged : Query) : Prop where
  plain : merged.Plain
  distinct : merged.Distinct
  links : ∀ path, merged.Selects true path ↔ ∃ query ∈ queries, query.Selects true path
  fields : ∀ path, merged.Selects false path ↔
    (∃ query ∈ queries, query.Selects false path) ∧ ¬ ∃ query ∈ queries, query.Selects true path

/-- What a query selects, its merger selects too, but perhaps as a link in place of a field. -/
theorem Merges.selects {queries : List Query} {query merged : Query} {link : Bool}
    {path : List String} (merges : Merges queries merged) (member : query ∈ queries)
    (selects : query.Selects link path) :
    merged.Selects true path ∨ merged.Selects link path := by
  by_cases linked : ∃ other ∈ queries, other.Selects true path
  · exact Or.inl ((merges.links path).mpr linked)
  · cases link with
    | true => exact (linked ⟨query, member, selects⟩).elim
    | false => exact Or.inr ((merges.fields path).mpr ⟨⟨query, member, selects⟩, linked⟩)

def Finishes (selections : List Selection) (name : String) : Selection → Prop
  | .field head => head = .named name ∧ (∃ selection ∈ selections, selection.name = name) ∧
      ∀ inner, .link (.named name) inner ∉ selections
  | .link head merged => head = .named name ∧ ∃ queries, queries ≠ [] ∧
      (∀ inner, inner ∈ queries ↔ .link (.named name) inner ∈ selections) ∧ Merges queries merged

theorem Finishes.head_eq {selections : List Selection} {name : String} {selection : Selection}
    (finishes : Finishes selections name selection) : selection.head = .named name := by
  cases selection with
  | field head => exact finishes.1
  | link head merged => exact finishes.1

theorem Finishes.name_eq {selections : List Selection} {name : String} {selection : Selection}
    (finishes : Finishes selections name selection) : selection.name = name := by
  simp [Selection.name, finishes.head_eq, Head.named]

section Finished

variable {queries : List Query} {selections : List Selection} {link : Bool} {name : String}
  {path : List String}

structure Finished (queries : List Query) (selections : List Selection) : Prop where
  nodup : (selections.map Selection.name).Nodup
  finishes : ∀ selection ∈ selections,
    Finishes (queries.flatMap Query.selections) selection.name selection
  complete : ∀ other ∈ queries.flatMap Query.selections,
    ∃ selection ∈ selections, selection.name = other.name

theorem exists_selects_single_iff : (∃ query ∈ queries, query.Selects link [name]) ↔
    ∃ selection ∈ queries.flatMap Query.selections, selection.isLink = link ∧
      selection.name = name := by
  simp only [Query.selects_single_iff, List.mem_flatMap]
  constructor
  · rintro ⟨query, member, selection, selected, kind, same⟩
    exact ⟨selection, ⟨query, member, selected⟩, kind, same⟩
  · rintro ⟨selection, ⟨query, member, selected⟩, kind, same⟩
    exact ⟨query, member, selection, selected, kind, same⟩

theorem exists_selects_cons_iff (plain : ∀ query ∈ queries, query.Plain) (more : path ≠ []) :
    (∃ query ∈ queries, query.Selects link (name :: path)) ↔
      ∃ inner, .link (.named name) inner ∈ queries.flatMap Query.selections ∧
        inner.Selects link path := by
  simp only [Query.selects_cons_iff more, List.mem_flatMap]
  constructor
  · rintro ⟨query, member, head, inner, selected, rfl, selects⟩
    have named : head = .named head.name := (plain query member).head_eq selected
    exact ⟨inner, ⟨query, member, named ▸ selected⟩, selects⟩
  · rintro ⟨inner, ⟨query, member, selected⟩, selects⟩
    exact ⟨query, member, .named name, inner, selected, rfl, selects⟩

theorem link_of_isLink (plain : ∀ query ∈ queries, query.Plain) {selection : Selection}
    (selected : selection ∈ queries.flatMap Query.selections) (kind : selection.isLink = true) :
    ∃ inner, .link (.named selection.name) inner ∈ queries.flatMap Query.selections := by
  obtain ⟨query, member, inside⟩ := List.mem_flatMap.mp selected
  have named := (plain query member).head_eq inside
  cases selection with
  | field head => simp [Selection.isLink] at kind
  | link head inner =>
      simp only [Selection.head] at named
      exact ⟨inner, named ▸ selected⟩

namespace Finished

theorem exists_link (finished : Finished queries selections) {inner : Query}
    (selected : .link (.named name) inner ∈ queries.flatMap Query.selections) :
    ∃ below merged, .link (.named name) merged ∈ selections ∧ Merges below merged ∧
      ∀ other, other ∈ below ↔ .link (.named name) other ∈ queries.flatMap Query.selections := by
  obtain ⟨selection, member, same⟩ := finished.complete _ selected
  have finishes := finished.finishes selection member
  rw [same] at finishes
  cases selection with
  | field head => exact (finishes.2.2 inner selected).elim
  | link head merged =>
      obtain ⟨rfl, below, _, iff, merges⟩ := finishes
      exact ⟨below, merged, member, merges, iff⟩

theorem links (finished : Finished queries selections)
    (plain : ∀ query ∈ queries, query.Plain) (path : List String) :
    (Query.ofSelections selections).Selects true path ↔
      ∃ query ∈ queries, query.Selects true path := by
  rcases path with _ | ⟨name, path⟩
  · simp [Query.not_selects_nil]
  by_cases more : path = []
  · subst more
    rw [Query.selects_single_iff, exists_selects_single_iff]
    constructor
    · rintro ⟨selection, member, kind, rfl⟩
      have finishes := finished.finishes selection member
      cases selection with
      | field head => simp [Selection.isLink] at kind
      | link head merged =>
          obtain ⟨_, below, some, iff, _⟩ := finishes
          obtain ⟨inner, inside⟩ := List.exists_mem_of_ne_nil below some
          exact ⟨_, (iff inner).mp inside, rfl, rfl⟩
    · rintro ⟨selection, selected, kind, rfl⟩
      obtain ⟨inner, linked⟩ := link_of_isLink plain selected kind
      obtain ⟨below, merged, known, _, _⟩ := finished.exists_link linked
      exact ⟨_, known, rfl, rfl⟩
  · rw [Query.selects_cons_iff more, exists_selects_cons_iff plain more]
    constructor
    · rintro ⟨head, merged, member, rfl, selects⟩
      obtain ⟨_, below, _, iff, merges⟩ := finished.finishes _ member
      obtain ⟨inner, inside, selectsInner⟩ := (merges.links path).mp selects
      exact ⟨inner, (iff inner).mp inside, selectsInner⟩
    · rintro ⟨inner, selected, selects⟩
      obtain ⟨below, merged, member, merges, iff⟩ := finished.exists_link selected
      exact ⟨_, merged, member, rfl,
        (merges.links path).mpr ⟨inner, (iff inner).mpr selected, selects⟩⟩

theorem fields (finished : Finished queries selections)
    (plain : ∀ query ∈ queries, query.Plain) (path : List String) :
    (Query.ofSelections selections).Selects false path ↔
      (∃ query ∈ queries, query.Selects false path) ∧
        ¬ ∃ query ∈ queries, query.Selects true path := by
  rcases path with _ | ⟨name, path⟩
  · simp [Query.not_selects_nil]
  by_cases more : path = []
  · subst more
    rw [Query.selects_single_iff, exists_selects_single_iff, exists_selects_single_iff]
    constructor
    · rintro ⟨selection, member, kind, rfl⟩
      have finishes := finished.finishes selection member
      cases selection with
      | link head merged => simp [Selection.isLink] at kind
      | field head =>
          obtain ⟨_, ⟨other, selected, same⟩, absent⟩ := finishes
          have single : ¬ ∃ one ∈ queries.flatMap Query.selections,
              one.isLink = true ∧ one.name = (Selection.field head).name := by
            rintro ⟨one, selectedOne, kindOne, sameOne⟩
            obtain ⟨inner, linked⟩ := link_of_isLink plain selectedOne kindOne
            exact absent inner (sameOne ▸ linked)
          refine ⟨⟨other, selected, ?_, same⟩, single⟩
          exact Bool.eq_false_iff.mpr fun kindOther => single ⟨other, selected, kindOther, same⟩
    · rintro ⟨⟨other, selected, _, rfl⟩, single⟩
      obtain ⟨selection, member, same⟩ := finished.complete other selected
      refine ⟨selection, member, ?_, same⟩
      have finishes := finished.finishes selection member
      cases selection with
      | field head => rfl
      | link head merged =>
          obtain ⟨_, below, some, iff, _⟩ := finishes
          obtain ⟨inner, inside⟩ := List.exists_mem_of_ne_nil below some
          exact (single ⟨_, (iff inner).mp inside, rfl, same⟩).elim
  · rw [Query.selects_cons_iff more, exists_selects_cons_iff plain more,
      exists_selects_cons_iff plain more]
    constructor
    · rintro ⟨head, merged, member, rfl, selects⟩
      obtain ⟨_, below, _, iff, merges⟩ := finished.finishes _ member
      obtain ⟨⟨inner, inside, selectsInner⟩, single⟩ := (merges.fields path).mp selects
      refine ⟨⟨inner, (iff inner).mp inside, selectsInner⟩, ?_⟩
      rintro ⟨other, selected, selectsOther⟩
      exact single ⟨other, (iff other).mpr selected, selectsOther⟩
    · rintro ⟨⟨inner, selected, selects⟩, single⟩
      obtain ⟨below, merged, member, merges, iff⟩ := finished.exists_link selected
      refine ⟨_, merged, member, rfl, (merges.fields path).mpr
        ⟨⟨inner, (iff inner).mpr selected, selects⟩, ?_⟩⟩
      rintro ⟨other, inside, selectsOther⟩
      exact single ⟨other, (iff other).mp inside, selectsOther⟩

end Finished

theorem Finished.merges (finished : Finished queries selections)
    (plain : ∀ query ∈ queries, query.Plain) : Merges queries (.ofSelections selections) := by
  refine ⟨.mk ?_ ?_, .mk finished.nodup ?_, finished.links plain, finished.fields plain⟩
  · exact fun selection member => (finished.finishes selection member).head_eq
  · intro head inner member
    obtain ⟨_, _, _, _, merges⟩ := finished.finishes _ member
    exact merges.plain
  · intro head inner member
    obtain ⟨_, _, _, _, merges⟩ := finished.finishes _ member
    exact merges.distinct

theorem Holding.finished {slots : Entries Slot}
    (holding : Holding (queries.flatMap Query.selections) slots)
    (aligned : List.Forall₂ (fun entry selection =>
      Finishes (queries.flatMap Query.selections) entry.1 selection) slots selections) :
    Finished queries selections := by
  have names : selections.map Selection.name = slots.map Prod.fst := by
    clear holding
    induction aligned with
    | nil => rfl
    | cons first _ ih => simp [first.name_eq, ih]
  have finishes : ∀ selection ∈ selections,
      Finishes (queries.flatMap Query.selections) selection.name selection := by
    clear holding names
    induction aligned with
    | nil => simp
    | cons first _ ih =>
        intro selection member
        rcases List.mem_cons.mp member with rfl | member
        · exact first.name_eq.symm ▸ first
        · exact ih selection member
  refine ⟨names ▸ holding.nodup, finishes, ?_⟩
  · intro other selected
    have known : other.name ∈ slots.map Prod.fst := by
      by_contra absent
      have collects := holding.collects other.name
      have none : slots.find? other.name = none := by
        rw [Entries.find?, List.lookup_eq_none_iff]
        intro entry member
        exact bne_iff_ne.mpr fun same => absent (List.mem_map.mpr ⟨entry, member, same.symm⟩)
      rw [none] at collects
      exact collects other selected rfl
    rw [← names] at known
    exact List.mem_map.mp known

end Finished

theorem exists_finishSlot {queries : List Query} {slots : Entries Slot} {steps : Nat}
    (plain : ∀ query ∈ queries, query.Plain) (enough : Query.heightOfAll queries ≤ steps + 1)
    (holding : Holding (queries.flatMap Query.selections) slots)
    (lower : ∀ below : List Query, (∀ query ∈ below, query.Plain) →
      Query.heightOfAll below ≤ steps →
      ∃ merged, absorbing.mergeWithin steps () below = .ok merged ∧ Merges below merged)
    {name : String} {slot : Slot} (member : (name, slot) ∈ slots) :
    ∃ selection, absorbing.finishSlot () (absorbing.mergeWithin steps) slot = .ok selection ∧
      Finishes (queries.flatMap Query.selections) name selection := by
  have collects := holding.collects name
  rw [Entries.find?_of_mem holding.nodup member] at collects
  cases slot with
  | field head => exact ⟨.field head, rfl, collects⟩
  | link head below =>
      obtain ⟨headNamed, some, iff⟩ := collects
      have inside : ∀ inner ∈ below, ∃ query ∈ queries,
          .link (.named name) inner ∈ query.selections := by
        intro inner memberInner
        exact List.mem_flatMap.mp ((iff inner).mp memberInner)
      have plainBelow : ∀ inner ∈ below, inner.Plain := by
        intro inner memberInner
        obtain ⟨query, memberQuery, selected⟩ := inside inner memberInner
        exact (plain query memberQuery).inner selected
      have lowerBelow : Query.heightOfAll below ≤ steps := by
        refine Query.heightOfAll_le_iff.mpr fun inner memberInner => ?_
        obtain ⟨query, memberQuery, selected⟩ := inside inner memberInner
        have first := Query.height_lt_of_link selected
        have second := Query.height_le_heightOfAll memberQuery
        omega
      obtain ⟨merged, done, merges⟩ := lower below plainBelow lowerBelow
      have finished : absorbing.finishSlot () (absorbing.mergeWithin steps) (.link head below) =
          .ok (.link head merged) := by
        simp only [MergePolicy.finishSlot]
        exact bind_eq_ok_iff.mpr ⟨merged, done, rfl⟩
      exact ⟨_, finished, headNamed, below, some, iff, merges⟩

/-- With enough steps for the height of the queries, merging them succeeds and merges. -/
theorem mergeWithin_merges (steps : Nat) (queries : List Query)
    (plain : ∀ query ∈ queries, query.Plain) (enough : Query.heightOfAll queries ≤ steps) :
    ∃ merged, absorbing.mergeWithin steps () queries = .ok merged ∧ Merges queries merged := by
  -- a step is taken for each level of links, so the height of the queries is enough
  induction steps generalizing queries with
  | zero =>
      obtain rfl := Query.eq_nil_of_heightOfAll enough
      refine ⟨.empty, rfl, Query.plain_empty, Query.distinct_empty, ?_, ?_⟩
      · exact fun path => by simp [Query.not_selects_empty]
      · exact fun path => by simp [Query.not_selects_empty]
  | succ steps ih =>
      have named : ∀ selection ∈ queries.flatMap Query.selections,
          selection.head = .named selection.name := by
        intro selection selected
        obtain ⟨query, member, inside⟩ := List.mem_flatMap.mp selected
        exact (plain query member).head_eq inside
      have holding := holding_foldl named
      generalize slotsEq : (queries.flatMap Query.selections).foldl absorbInto [] = slots at holding
      have each : ∀ entry ∈ slots, ∃ selection,
          absorbing.finishSlot () (absorbing.mergeWithin steps) entry.2 = .ok selection ∧
            Finishes (queries.flatMap Query.selections) entry.1 selection :=
        fun entry member => exists_finishSlot plain enough holding ih member
      obtain ⟨selections, made, aligned⟩ := exists_mapM_eq_ok each
      refine ⟨.ofSelections selections, ?_, (holding.finished aligned).merges plain⟩
      have values : slots.values.mapM (absorbing.finishSlot () (absorbing.mergeWithin steps)) =
          .ok selections := by
        rw [Entries.values, List.mapM_map]
        exact made
      have unordered : queries.any Query.ordered = false := by
        rw [List.any_eq_false]
        intro query member
        simp [(plain query member).ordered_eq]
      simp only [MergePolicy.mergeWithin, gatherAll_eq plain, slotsEq, ok_bind, values,
        MergePolicy.finishGroups, unordered]
      rfl

theorem mergeRequirements_merges {queries : List Query} (plain : ∀ query ∈ queries, query.Plain) :
    Merges queries (.mergeRequirements queries) := by
  obtain ⟨merged, done, merges⟩ := mergeWithin_merges _ queries plain (Nat.le_refl _)
  have same : Query.mergeRequirements queries = merged := by
    have merge : absorbing.merge () queries = .ok merged := done
    simp only [absorbing] at merge
    simp only [Query.mergeRequirements, merge]
  exact same ▸ merges

end Requirement

end GraphQuery
