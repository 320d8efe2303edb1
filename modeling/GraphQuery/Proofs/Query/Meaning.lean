import GraphQuery.Proofs.Query.Merging
import Mathlib.Data.List.Chain

/-!
What a query means: the paths of steps that it selects for a sequence of objects, when each object
matches some type names. A merged query selects what the queries it is made of select.
-/

namespace GraphQuery

structure Step where
  key : String
  name : String
  options? : Option (Entries Value)

def Head.takes (head : Head) (step : Step) : Bool :=
  head.resultKey == step.key && head.name == step.name && sameOptions head.options? step.options?

/--
A query selects a path of steps, each taken from an object. A step is a selection of the query, or
of a fragment that is unconditional or on a type name that the object matches; all steps but the
last are links.
-/
inductive Query.SelectsFor {α : Type} (matched : α → String → Prop) :
    Query → List (α × Step) → Prop
  | last {query selection object step} : selection ∈ query.selections →
      selection.head.takes step = true → SelectsFor matched query [(object, step)]
  | link {query head inner object step path} : .link head inner ∈ query.selections →
      head.takes step = true → SelectsFor matched inner path →
      SelectsFor matched query ((object, step) :: path)
  | fragment {query fragment object step path} : fragment ∈ query.fragments →
      (∀ typeName ∈ fragment.typeName?, matched object typeName) →
      SelectsFor matched fragment.query ((object, step) :: path) →
      SelectsFor matched query ((object, step) :: path)

namespace Head

variable {head other : Head} {step : Step}

theorem takes_iff : head.takes step = true ↔ head.resultKey = step.key ∧ head.name = step.name ∧
    sameOptions head.options? step.options? = true := by
  rw [takes, Bool.and_eq_true, Bool.and_eq_true, beq_iff_eq, beq_iff_eq, and_assoc]

theorem takes_joinedTo (head : Head) (selections : List Selection) (step : Step) :
    (head.joinedTo selections).takes step = head.takes step := by
  simp [takes]

theorem takes_of_agrees (same : head.resultKey = other.resultKey)
    (agrees : head.agrees other = true) (takes : other.takes step = true) :
    head.takes step = true := by
  rw [takes_iff] at takes ⊢
  rw [agrees_iff] at agrees
  exact ⟨same.trans takes.1, agrees.1.trans takes.2.1, sameOptions_trans agrees.2 takes.2.2⟩

end Head

section Parts

variable {α : Type} {matched : α → String → Prop}

inductive Selection.Leads (matched : α → String → Prop) : Selection → List (α × Step) → Prop
  | last {selection object step} : selection.head.takes step = true →
      Leads matched selection [(object, step)]
  | link {head inner object step path} : head.takes step = true →
      inner.SelectsFor matched path → Leads matched (.link head inner) ((object, step) :: path)

inductive Part.SelectsFor (matched : α → String → Prop) : Part → List (α × Step) → Prop
  | own {selection path} : selection.Leads matched path → SelectsFor matched (.own selection) path
  | group {typeName query object step path} : matched object typeName →
      query.SelectsFor matched ((object, step) :: path) →
      SelectsFor matched (.group typeName query) ((object, step) :: path)

variable {query : Query} {path : List (α × Step)}

theorem Selection.Leads.selectsFor {selection : Selection} (leads : selection.Leads matched path)
    (member : selection ∈ query.selections) : query.SelectsFor matched path := by
  cases leads with
  | last takes => exact .last member takes
  | link takes below => exact .link member takes below

theorem Query.selectsFor_cons_iff {object : α} {step : Step} :
    query.SelectsFor matched ((object, step) :: path) ↔
      (∃ selection ∈ query.selections, selection.Leads matched ((object, step) :: path)) ∨
        ∃ fragment ∈ query.fragments, (∀ typeName ∈ fragment.typeName?, matched object typeName) ∧
          fragment.query.SelectsFor matched ((object, step) :: path) := by
  constructor
  · intro selects
    cases selects with
    | last member takes => exact .inl ⟨_, member, .last takes⟩
    | link member takes below => exact .inl ⟨_, member, .link takes below⟩
    | fragment member applies inside => exact .inr ⟨_, member, applies, inside⟩
  · rintro (⟨selection, member, leads⟩ | ⟨fragment, member, applies, inside⟩)
    · exact leads.selectsFor member
    · exact .fragment member applies inside

theorem Query.SelectsFor.exists_cons (selects : query.SelectsFor matched path) :
    ∃ object step rest, path = (object, step) :: rest := by
  cases selects <;> exact ⟨_, _, _, rfl⟩

theorem Query.not_selectsFor_of_isEmpty (nothing : query.isEmpty = true) :
    ¬ query.SelectsFor matched path := by
  simp only [isEmpty, Bool.and_eq_true, List.isEmpty_iff] at nothing
  intro selects
  cases selects with
  | last member _ | link member _ _ => simp [nothing.1] at member
  | fragment member _ _ => simp [nothing.2] at member

variable {κ : Type}

namespace MergePolicy

variable {ε : Type} {policy : MergePolicy κ ε} {place : κ}

/-- Whatever becomes of fragments at a place, what a query selects one of its parts selects. -/
theorem exists_part_selectsFor (policy : MergePolicy κ ε) (place : κ)
    (selects : query.SelectsFor matched path) :
    ∃ part ∈ policy.parts place query, part.SelectsFor matched path := by
  induction selects with
  | last member takes => exact ⟨_, mem_parts_iff.mpr (.inl ⟨_, member, rfl⟩), .own (.last takes)⟩
  | link member takes below _ =>
      exact ⟨_, mem_parts_iff.mpr (.inl ⟨_, member, rfl⟩), .own (.link takes below)⟩
  | @fragment query fragment object step path member applies inside ih =>
      have mem : ∀ part, policy.PartOf place fragment part → part ∈ policy.parts place query :=
        fun part ofFragment => mem_parts_iff.mpr (.inr ⟨fragment, member, ofFragment⟩)
      obtain ⟨_ | typeName, inner⟩ := fragment
      · obtain ⟨part, known, selects⟩ := ih
        exact ⟨part, mem _ (.unconditional known), selects⟩
      · have here := applies typeName rfl
        cases treated : policy.treatment place typeName with
        | expand =>
            obtain ⟨part, known, selects⟩ := ih
            exact ⟨part, mem _ (.expanded treated known), selects⟩
        | keep => exact ⟨_, mem _ (.kept treated), .group here inside⟩
        | hoist shared =>
            rcases Query.selectsFor_cons_iff.mp inside with ⟨selection, own, leads⟩ | deeper
            · cases hoisted : shared.contains selection.name with
              | true => exact ⟨_, mem _ (.hoisted treated own hoisted), .own leads⟩
              | false =>
                  have left : selection ∈ (specific shared inner).selections :=
                    List.mem_filter.mpr ⟨own, by rw [hoisted]; rfl⟩
                  exact ⟨_, mem _ (.specific treated), .group here (leads.selectsFor left)⟩
            · exact ⟨_, mem _ (.specific treated),
                .group here (Query.selectsFor_cons_iff.mpr (.inr deeper))⟩

/-- The treatment of fragments is exact at a place for an object when fragments are expanded only if
the object matches their type name, and nothing is hoisted. -/
structure Exact (policy : MergePolicy κ ε) (place : κ) (matches? : String → Prop) : Prop where
  expand : ∀ typeName, policy.treatment place typeName = .expand → matches? typeName
  hoist : ∀ typeName shared, policy.treatment place typeName ≠ .hoist shared

theorem selectsFor_of_part {object : α} {step : Step}
    (exact : policy.Exact place (matched object)) {part : Part}
    (member : part ∈ policy.parts place query)
    (selects : part.SelectsFor matched ((object, step) :: path)) :
    query.SelectsFor matched ((object, step) :: path) := by
  induction query using Query.inductFragments with
  | step query ih =>
      rcases mem_parts_iff.mp member with ⟨selection, own, rfl⟩ | ⟨fragment, inside, ofFragment⟩
      · cases selects with
        | own leads => exact leads.selectsFor own
      · cases ofFragment with
        | unconditional member =>
            exact .fragment inside (fun typeName none => by cases none) (ih _ inside member)
        | expanded treated member =>
            refine .fragment inside (fun typeName same => ?_) (ih _ inside member)
            obtain rfl := Option.some.inj same
            exact exact.expand _ treated
        | hoisted treated _ _ | specific treated => exact (exact.hoist _ _ treated).elim
        | kept _ =>
            cases selects with
            | group here selectsInner =>
                refine .fragment inside (fun typeName same => ?_) selectsInner
                obtain rfl := Option.some.inj same
                exact here

end MergePolicy

/-! What merging makes of the parts -/

namespace MergePolicy

variable {policy : MergePolicy κ MergeError} {place : κ} {queries : List Query} {merged : Query}

namespace Merges

variable {finished selection : Selection} {step : Step}

theorem takes (merges : policy.Merges place queries merged)
    (member : finished ∈ merged.selections)
    (under : selection ∈ Selection.under finished.resultKey (policy.selectionsAt place queries))
    (takes : selection.head.takes step = true) : finished.head.takes step = true := by
  obtain ⟨first, rest, _, key, _, head, means⟩ := merges.exists_first member
  rw [head, Head.takes_joinedTo]
  rcases means selection under with rfl | agrees
  · exact takes
  · have sameKey := key.trans (Selection.mem_under_iff.mp under).2.symm
    exact Head.takes_of_agrees sameKey (Selection.agrees_iff.mp agrees).2 takes

theorem takes_back (merges : policy.Merges place queries merged)
    (keyed : ∀ query ∈ queries, query.isKeyed = true) (member : finished ∈ merged.selections)
    (under : selection ∈ Selection.under finished.resultKey (policy.selectionsAt place queries))
    (takes : finished.head.takes step = true) : selection.head.takes step = true := by
  obtain ⟨first, rest, own, key, _, head, means⟩ := merges.exists_first member
  rw [head, Head.takes_joinedTo] at takes
  have keyedOwn : ∀ {other}, .own other ∈ policy.partsAt place queries →
      other.head.isKeyed = true := fun known => Selection.every_head (every_of_partsAt keyed known)
  rcases means selection under with rfl | agrees
  · exact takes
  · have known := Selection.mem_under_iff.mp under
    have back := Selection.agrees_symm (keyedOwn own)
      (keyedOwn (Part.mem_selections_iff.mp known.1)) agrees
    exact Head.takes_of_agrees (known.2.trans key.symm) (Selection.agrees_iff.mp back).2 takes

end Merges

/-- Merging loses nothing: what one of the queries selects is selected by the merged query. -/
theorem selectsFor_merge (joins : policy.combine = Slot.join)
    (done : policy.merge place queries = .ok merged) (member : query ∈ queries)
    (selects : query.SelectsFor matched path) : merged.SelectsFor matched path := by
  induction queries using Query.inductAll generalizing place merged query path with
  | step queries ih =>
      have merges := merges_of_merge joins done
      -- the part that selects the path is merged with others, at the same place as before
      obtain ⟨part, inside, selectsPart⟩ := exists_part_selectsFor policy place selects
      have known : part ∈ policy.partsAt place queries :=
        List.mem_flatMap.mpr ⟨query, member, inside⟩
      cases selectsPart with
      | @own selection _ leads =>
          obtain ⟨finished, memberFinished, same⟩ := merges.exists_finished known
          have under := Selection.mem_under_iff.mpr ⟨Part.mem_selections_iff.mpr known, same.symm⟩
          cases leads with
          | last takes => exact .last memberFinished (merges.takes memberFinished under takes)
          | @link head inner _ _ _ takes below =>
              have takesFinished := merges.takes memberFinished under takes
              have isLink : finished.isLink = true := merges.isLink_eq memberFinished under
              cases finished with
              | field head => cases isLink
              | link headFinished mergedInner =>
                  obtain ⟨inners, doneInner, lower, made⟩ := merges.of_link memberFinished
                  refine .link memberFinished takesFinished ?_
                  exact ih _ lower doneInner ((made inner).mpr ⟨head, under⟩) below
      | @group typeName inner _ _ _ here selectsInner =>
          obtain ⟨mergedInner, doneInner, nothing | kept⟩ := merges.exists_inside known
          · have inside := Part.mem_queriesOn_iff.mpr known
            have lower := heightOfAll_lt_of_queriesOn (List.ne_nil_of_mem inside)
            exact (Query.not_selectsFor_of_isEmpty nothing
              (ih _ lower doneInner inside selectsInner)).elim
          · have inside := Part.mem_queriesOn_iff.mpr known
            have lower := heightOfAll_lt_of_queriesOn (List.ne_nil_of_mem inside)
            have selects := ih _ lower doneInner inside selectsInner
            refine .fragment kept (fun other same => ?_) selects
            obtain rfl := Option.some.inj same
            exact here

/-- How far merging keeps what objects match: objects of a kind are at a place, fragments are
expanded there only for what they all match, and what they match they are at inside. -/
structure Faithful (policy : MergePolicy κ MergeError) (matched : α → String → Prop)
    (isAt : α → κ → Prop) : Prop where
  exact : ∀ object place, isAt object place → policy.Exact place (matched object)
  inside : ∀ object place typeName, isAt object place → matched object typeName →
    isAt object (policy.inside place typeName)

theorem exists_query_selectsFor {object : α} {step : Step}
    (exact : policy.Exact place (matched object)) {part : Part}
    (member : part ∈ policy.partsAt place queries)
    (selects : part.SelectsFor matched ((object, step) :: path)) :
    ∃ query ∈ queries, query.SelectsFor matched ((object, step) :: path) := by
  obtain ⟨query, given, inside⟩ := List.mem_flatMap.mp member
  exact ⟨query, given, selectsFor_of_part exact inside selects⟩

/-- Merging that is exact adds nothing: what the merged query selects one of the queries selects. -/
theorem exists_selectsFor_of_merge {isAt : α → κ → Prop} (joins : policy.combine = Slot.join)
    (faithful : policy.Faithful matched isAt) (keyed : ∀ query ∈ queries, query.isKeyed = true)
    (done : policy.merge place queries = .ok merged)
    (starts : ∀ first ∈ path.head?, isAt first.1 place)
    (linked : path.IsChain fun first second =>
      ∀ place, isAt first.1 place → isAt second.1 (policy.below place first.2.name))
    (selects : merged.SelectsFor matched path) :
    ∃ query ∈ queries, query.SelectsFor matched path := by
  induction queries using Query.inductAll generalizing place merged path with
  | step queries ih =>
      have merges := merges_of_merge joins done
      obtain ⟨object, step, path, rfl⟩ := selects.exists_cons
      have exact := faithful.exact _ _ (starts _ rfl)
      cases selects with
      | last member takes =>
          obtain ⟨first, rest, own, key, _, head, means⟩ := merges.exists_first member
          rw [head, Head.takes_joinedTo] at takes
          exact exists_query_selectsFor exact own (.own (.last takes))
      | @link _ head inner _ _ _ member takes selectsInner =>
          obtain ⟨inners, doneInner, lower, made⟩ := merges.of_link member
          have name : head.name = step.name := (Head.takes_iff.mp takes).2.1
          have keyedInners : ∀ inner ∈ inners, inner.isKeyed = true := by
            intro inner given
            obtain ⟨headToo, under⟩ := (made inner).mp given
            exact every_of_link keyed under
          have startsInner : ∀ first ∈ path.head?, isAt first.1 (policy.below place head.name) := by
            intro first found
            obtain ⟨rest, rfl⟩ := List.head?_eq_some_iff.mp found
            rw [name]
            exact (List.isChain_cons_cons.mp linked).1 place (starts _ rfl)
          obtain ⟨query, given, selects⟩ :=
            ih _ lower keyedInners doneInner startsInner linked.tail selectsInner
          obtain ⟨headToo, under⟩ := (made query).mp given
          have takesToo := merges.takes_back keyed member under takes
          exact exists_query_selectsFor exact (own_of_under under) (.own (.link takesToo selects))
      | fragment member applies selectsInner =>
          obtain ⟨typeName, some, finishes⟩ := merges.of_fragment member
          cases finishes with
          | mk doneInner =>
              have here := applies typeName rfl
              have startsInner : ∀ first ∈ ((object, step) :: path).head?,
                  isAt first.1 (policy.inside place typeName) := by
                intro first found
                obtain rfl := Option.some.inj found
                exact faithful.inside _ _ _ (starts _ rfl) here
              obtain ⟨query, given, selects⟩ := ih _ (heightOfAll_lt_of_queriesOn some)
                (fun _ given => every_of_queriesOn keyed given) doneInner startsInner linked
                selectsInner
              have known := Part.mem_queriesOn_iff.mp given
              exact exists_query_selectsFor exact known (.group here selects)

end MergePolicy

end Parts

/-! Merging without a graph -/

/-- A merged query selects exactly what the queries it is made of select, whatever types the objects
on the way match. -/
theorem Query.merge_selectsFor_iff {queries : List Query} {merged : Query}
    (keyed : ∀ query ∈ queries, query.isKeyed = true) (done : Query.merge queries = .ok merged)
    (path : List (Set String × Step)) :
    merged.SelectsFor (fun types typeName => typeName ∈ types) path ↔
      ∃ query ∈ queries, query.SelectsFor (fun types typeName => typeName ∈ types) path := by
  have faithful : (MergePolicy.plain Slot.join).Faithful
      (fun (types : Set String) typeName => typeName ∈ types) fun _ _ => True := by
    refine ⟨fun _ _ _ => ⟨?_, ?_⟩, fun _ _ _ _ _ => trivial⟩
    · intro typeName treated
      cases treated
    · intro typeName shared treated
      cases treated
  constructor
  · intro selects
    have linked := (List.isChain_isInfix path).imp fun _ _ _ (_ : Unit) (_ : True) => trivial
    exact MergePolicy.exists_selectsFor_of_merge rfl faithful keyed done (fun _ _ => trivial) linked
      selects
  · rintro ⟨query, member, selects⟩
    exact MergePolicy.selectsFor_merge rfl done member selects

def Query.playlists : List Query :=
  [.mk [.field ⟨"id", some "key", none, []⟩,
      .link (.named "playlist") (.ofSelections [.field (.named "title")])]
    [.mk (some "Audio") .empty, .mk none (.ofSelections [.field (.named "id")])] false,
  .ofSelections [.link (.named "playlist")
    (.mk [] [.mk (some "Audio") (.ofSelections [.field (.named "format")])] false)]]

def Query.mergedPlaylists : Query :=
  .ofSelections [.field ⟨"id", some "key", none, []⟩,
    .link (.named "playlist") (.mk [.field (.named "title")]
      [.mk (some "Audio") (.ofSelections [.field (.named "format")])] false),
    .field (.named "id")]

theorem Query.merge_selectsFor_playlists :
    (∀ query ∈ playlists, query.isKeyed = true) ∧ Query.merge playlists = .ok mergedPlaylists ∧
      mergedPlaylists.SelectsFor (fun types typeName => typeName ∈ types)
        [((∅ : Set String), ⟨"playlist", "playlist", none⟩),
          ({"Audio"}, ⟨"format", "format", none⟩)] := by
  have keyed : ∀ query ∈ playlists, query.isKeyed = true := by decide
  refine ⟨keyed, rfl, (merge_selectsFor_iff keyed rfl _).mpr ?_⟩
  refine ⟨_, List.mem_cons_of_mem _ List.mem_cons_self, .link List.mem_cons_self rfl ?_⟩
  refine .fragment List.mem_cons_self ?_ (.last List.mem_cons_self rfl)
  exact fun typeName same => (Option.some.inj same).symm

end GraphQuery
