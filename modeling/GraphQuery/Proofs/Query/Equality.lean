import GraphQuery.Proofs.Query.Counting

/-!
When queries are equal. Among queries that hold no NaN equality is an equivalence, and equal are
those whose parts can be paired off.
-/

namespace GraphQuery

theorem Directive.partialEquivalence : PartialEquivalence
    (fun directive : Directive => (Value.object directive.arguments).isKeyed = true)
    (· == ·) where
  symm keyed keyedToo := beq_symm keyed keyedToo
  trans _ _ _ := beq_trans

namespace Head

variable {head other last : Head}

theorem directives_of_comparable (comparable : head.isComparable = true) :
    ∀ directive ∈ head.directives, (Value.object directive.arguments).isKeyed = true ∧
      (directive == directive) = true :=
  fun _ member => ⟨isKeyed_of_directive (keyed_of_comparable comparable) member,
    directive_beq_self comparable member⟩

theorem partialEquivalence :
    PartialEquivalence (fun head : Head => head.isComparable = true) (· == ·) where
  symm {head other} comparable comparableToo equal := by
    rw [beq_iff] at equal ⊢
    obtain ⟨name, key, options, directives⟩ := equal
    have keyed := keyed_of_comparable comparable
    have keyedToo := keyed_of_comparable comparableToo
    exact ⟨name.symm, key.symm,
      sameOptions_symm (isKeyed_options keyed) (isKeyed_options keyedToo) options,
      Directive.partialEquivalence.ofLists.symm (directives_of_comparable comparable)
        (directives_of_comparable comparableToo) directives⟩
  trans {first second third} comparable comparableToo comparableLast equal onward := by
    rw [beq_iff] at equal onward ⊢
    obtain ⟨name, key, options, directives⟩ := equal
    obtain ⟨nameToo, keyToo, optionsToo, directivesToo⟩ := onward
    exact ⟨name.trans nameToo, key.trans keyToo, sameOptions_trans options optionsToo,
      Directive.partialEquivalence.ofLists.trans (directives_of_comparable comparable)
        (directives_of_comparable comparableToo) (directives_of_comparable comparableLast)
        directives directivesToo⟩

structure Same (head other : Head) : Prop where
  name : head.name = other.name
  alias? : head.alias? = other.alias?
  options : sameOptions head.options? other.options? = true
  directives : Paired (fun directive other => (directive == other) = true) head.directives
    other.directives

theorem beq_iff_same (comparable : head.isComparable = true)
    (comparableToo : other.isComparable = true) : (head == other) = true ↔ head.Same other := by
  have known := directives_of_comparable comparable
  have knownToo := directives_of_comparable comparableToo
  rw [beq_iff, Directive.partialEquivalence.sameItems_iff_paired
    (fun directive member => (known directive member).1)
    (fun directive member => (knownToo directive member).1)
    (fun directive member => (known directive member).2)
    fun directive member => (knownToo directive member).2]
  constructor
  · rintro ⟨name, key, options, directives⟩
    exact ⟨name, key, options, directives⟩
  · rintro ⟨name, key, options, directives⟩
    exact ⟨name, key, options, directives⟩

end Head

section Below

variable {among : Query → Prop} {same : Query → Query → Bool}

theorem Selection.partialEquivalence (below : PartialEquivalence among same) : PartialEquivalence
    (fun selection : Selection => selection.head.isComparable = true ∧
      ∀ query ∈ selection.inner?, among query) (sameBy same) where
  symm {selection other} known knownToo equal := by
    cases selection with
    | field head =>
        cases other with
        | field otherHead => exact Head.partialEquivalence.symm known.1 knownToo.1 equal
        | link _ _ => cases equal
    | link head query =>
        cases other with
        | field _ => cases equal
        | link otherHead otherQuery =>
            rw [sameBy, Bool.and_eq_true] at equal ⊢
            exact ⟨Head.partialEquivalence.symm known.1 knownToo.1 equal.1,
              below.symm (known.2 query rfl) (knownToo.2 otherQuery rfl) equal.2⟩
  trans {first second third} known knownToo knownLast equal onward := by
    cases second with
    | field head =>
        cases first with
        | link _ _ => cases equal
        | field headFirst =>
            cases third with
            | link _ _ => cases onward
            | field headLast =>
                exact Head.partialEquivalence.trans known.1 knownToo.1 knownLast.1 equal onward
    | link head query =>
        cases first with
        | field _ => cases equal
        | link headFirst queryFirst =>
            cases third with
            | field _ => cases onward
            | link headLast queryLast =>
                rw [sameBy, Bool.and_eq_true] at equal onward ⊢
                exact ⟨Head.partialEquivalence.trans known.1 knownToo.1 knownLast.1 equal.1
                  onward.1, below.trans (known.2 _ rfl) (knownToo.2 _ rfl) (knownLast.2 _ rfl)
                  equal.2 onward.2⟩

theorem Fragment.partialEquivalence (below : PartialEquivalence among same) : PartialEquivalence
    (fun fragment : Fragment => among fragment.query) (sameBy same) where
  symm known knownToo equal := by
    rw [sameBy, Bool.and_eq_true, beq_iff_eq] at equal ⊢
    exact ⟨equal.1.symm, below.symm known knownToo equal.2⟩
  trans known knownToo knownLast equal onward := by
    rw [sameBy, Bool.and_eq_true, beq_iff_eq] at equal onward ⊢
    exact ⟨equal.1.trans onward.1, below.trans known knownToo knownLast equal.2 onward.2⟩

end Below

section Like

variable {below : Query → Query → Prop} {same : Query → Query → Bool}

theorem Selection.sameBy_iff_like {selection other : Selection}
    (comparable : selection.every Head.isComparable = true)
    (comparableToo : other.every Head.isComparable = true)
    (inner : ∀ head query, selection = .link head query → ∀ otherHead otherQuery,
      other = .link otherHead otherQuery → (same query otherQuery = true ↔ below query otherQuery)) :
    sameBy same selection other = true ↔ Selection.Like Head.Same below selection other := by
  have heads := Head.beq_iff_same (every_head comparable) (every_head comparableToo)
  cases selection with
  | field head =>
      cases other with
      | field otherHead =>
          refine heads.trans ⟨.field, fun like => ?_⟩
          cases like
          assumption
      | link _ _ => exact ⟨fun equal => (nomatch equal), fun like => (nomatch like)⟩
  | link head query =>
      cases other with
      | field _ => exact ⟨fun equal => (nomatch equal), fun like => (nomatch like)⟩
      | link otherHead otherQuery =>
          rw [sameBy, Bool.and_eq_true, inner head query rfl otherHead otherQuery rfl]
          refine (and_congr_left fun _ => heads).trans ⟨fun held => .link held.1 held.2, ?_⟩
          intro like
          cases like with
          | link same below => exact ⟨same, below⟩

theorem Fragment.sameBy_iff_like {fragment other : Fragment}
    (inner : same fragment.query other.query = true ↔ below fragment.query other.query) :
    sameBy same fragment other = true ↔ Fragment.Like below fragment other := by
  obtain ⟨typeName?, query⟩ := fragment
  obtain ⟨otherName?, otherQuery⟩ := other
  rw [sameBy, Bool.and_eq_true, inner, beq_iff_eq]
  constructor
  · rintro ⟨sameName, held⟩
    obtain rfl : typeName? = otherName? := sameName
    exact .mk held
  · intro like
    cases like with
    | mk held => exact ⟨rfl, held⟩

end Like

theorem Fragment.sameBy_self (fragment : Fragment) : sameBy (· == ·) fragment fragment = true := by
  rw [sameBy, Query.beq_self, Bool.and_true, beq_iff_eq]

namespace Query

variable {query other : Query}

theorem comparable_iff : query.isComparable = true ↔
    (∀ selection ∈ query.selections, selection.every Head.isComparable = true) ∧
      ∀ fragment ∈ query.fragments, fragment.query.isComparable = true := by
  obtain ⟨selections, fragments, ordered⟩ := query
  exact every_mk_iff

/-! One level of what can be compared, given what holds of the queries below it -/

section Levels

variable {among : Query → Prop} (comparable : query.isComparable = true)

include comparable

theorem selections_among
    (below : ∀ head inner, .link head inner ∈ query.selections → among inner) :
    ∀ selection ∈ query.selections, (selection.head.isComparable = true ∧
      ∀ inner ∈ selection.inner?, among inner) ∧
      Selection.sameBy (· == ·) selection selection = true := by
  intro selection member
  have here := (comparable_iff.mp comparable).1 selection member
  refine ⟨⟨Selection.every_head here, fun inner found => ?_⟩, Selection.sameBy_self here⟩
  cases selection with
  | field head => cases found
  | link head query =>
      obtain rfl := Option.some.inj found
      exact below head _ member

theorem comparable_of_link {head : Head} {inner : Query}
    (member : .link head inner ∈ query.selections) : inner.isComparable = true :=
  (Selection.every_link_iff.mp ((comparable_iff.mp comparable).1 _ member)).2

theorem comparable_of_fragment {fragment : Fragment} (member : fragment ∈ query.fragments) :
    fragment.query.isComparable = true :=
  (comparable_iff.mp comparable).2 fragment member

end Levels

theorem fragments_among {among : Query → Prop}
    (inside : ∀ fragment ∈ query.fragments, among fragment.query) :
    ∀ fragment ∈ query.fragments, among fragment.query ∧
      Fragment.sameBy (· == ·) fragment fragment = true :=
  fun fragment member => ⟨inside fragment member, fragment.sameBy_self⟩

def ComparableWithin (bound : Nat) (query : Query) : Prop :=
  query.isComparable = true ∧ query.height ≤ bound

theorem partialEquivalence_within (bound : Nat) :
    PartialEquivalence (ComparableWithin bound) (· == ·) := by
  -- on lists of items symmetry rests on transitivity among the items, so both go up together
  induction bound with
  | zero =>
      refine ⟨fun {query _} known => ?_, fun {query _ _} known => ?_⟩ <;>
        exact absurd known.2 (Nat.not_le_of_gt query.height_pos)
  | succ bound ih =>
      have ofSelections := (Selection.partialEquivalence ih).ofLists
      have ofFragments := (Fragment.partialEquivalence ih).ofLists
      have selections := fun (query : Query) (known : ComparableWithin (bound + 1) query) =>
        @selections_among query (ComparableWithin bound) known.1 fun head inner member =>
          ⟨comparable_of_link known.1 member, (height_le_iff.mp known.2).1 head inner member⟩
      have fragments := fun (query : Query) (known : ComparableWithin (bound + 1) query) =>
        @fragments_among query (ComparableWithin bound) fun fragment member =>
          ⟨comparable_of_fragment known.1 member, (height_le_iff.mp known.2).2 fragment member⟩
      constructor
      · intro query other known knownToo equal
        rw [beq_iff] at equal ⊢
        exact ⟨equal.1.symm,
          ofSelections.symm (selections query known) (selections other knownToo) equal.2.1,
          ofFragments.symm (fragments query known) (fragments other knownToo) equal.2.2⟩
      · intro first second third known knownToo knownLast equal onward
        rw [beq_iff] at equal onward ⊢
        exact ⟨equal.1.trans onward.1,
          ofSelections.trans (selections first known) (selections second knownToo)
            (selections third knownLast) equal.2.1 onward.2.1,
          ofFragments.trans (fragments first known) (fragments second knownToo)
            (fragments third knownLast) equal.2.2 onward.2.2⟩

theorem partialEquivalence :
    PartialEquivalence (fun query : Query => query.isComparable = true) (· == ·) where
  symm {query other} comparable comparableToo :=
    (partialEquivalence_within (max query.height other.height)).symm
      ⟨comparable, by omega⟩ ⟨comparableToo, by omega⟩
  trans {first second third} comparable comparableToo comparableLast :=
    (partialEquivalence_within (max first.height (max second.height third.height))).trans
      ⟨comparable, by omega⟩ ⟨comparableToo, by omega⟩ ⟨comparableLast, by omega⟩

theorem beq_iff_paired (comparable : query.isComparable = true)
    (comparableToo : other.isComparable = true) :
    (query == other) = true ↔ query.ordered = other.ordered ∧
      Paired (fun selection found => Selection.sameBy (· == ·) selection found = true)
        query.selections other.selections ∧
      Paired (fun fragment found => Fragment.sameBy (· == ·) fragment found = true)
        query.fragments other.fragments := by
  have selections := selections_among comparable fun _ _ => comparable_of_link comparable
  have selectionsToo :=
    selections_among comparableToo fun _ _ => comparable_of_link comparableToo
  rw [beq_iff, (Selection.partialEquivalence partialEquivalence).sameItems_iff_paired
      (fun selection member => (selections selection member).1)
      (fun selection member => (selectionsToo selection member).1)
      (fun selection member => (selections selection member).2)
      (fun selection member => (selectionsToo selection member).2),
    (Fragment.partialEquivalence partialEquivalence).sameItems_iff_paired
      (fun _ => comparable_of_fragment comparable)
      (fun _ => comparable_of_fragment comparableToo)
      (fun fragment _ => fragment.sameBy_self) (fun fragment _ => fragment.sameBy_self)]

theorem like_iff {same : Head → Head → Prop} : Query.Like same query other ↔
    query.ordered = other.ordered ∧
      Paired (Selection.Like same (Query.Like same)) query.selections other.selections ∧
      Paired (Fragment.Like (Query.Like same)) query.fragments other.fragments := by
  constructor
  · exact fun alike => ⟨alike.ordered_eq, alike.selections, alike.fragments⟩
  · rintro ⟨sameOrder, selections, fragments⟩
    obtain ⟨ownSelections, ownFragments, ordered⟩ := query
    obtain ⟨otherSelections, otherFragments, orderedToo⟩ := other
    obtain rfl : ordered = orderedToo := sameOrder
    exact .mk selections fragments

theorem beq_iff_like (comparable : query.isComparable = true)
    (comparableToo : other.isComparable = true) :
    (query == other) = true ↔ Query.Like Head.Same query other := by
  induction query using Query.induct generalizing other with
  | step query ofLink ofFragment =>
      have selections := (comparable_iff.mp comparable).1
      have selectionsToo := (comparable_iff.mp comparableToo).1
      rw [beq_iff_paired comparable comparableToo, like_iff]
      refine and_congr_right fun _ => and_congr (Paired.congr ?_) (Paired.congr ?_)
      · intro selection member found inside
        refine Selection.sameBy_iff_like (selections selection member) (selectionsToo found inside)
          fun head inner same otherHead otherInner sameToo => ?_
        subst same sameToo
        exact ofLink head inner member (comparable_of_link comparable member)
          (comparable_of_link comparableToo inside)
      · intro fragment member found inside
        exact Fragment.sameBy_iff_like (ofFragment fragment member
          (comparable_of_fragment comparable member) (comparable_of_fragment comparableToo inside))

/-- Equality is an equivalence among queries that hold no NaN. Two of them are equal exactly if both
or neither are ordered and their selections and fragments can be paired off: fields with fields and
links with links that are equal in all but the order of their directives, fragments on the same name
or none, and so on with the queries below links and in fragments. -/
theorem beq_equivalence :
    Equivalence (fun query other : { query : Query // query.isComparable = true } =>
      (query.val == other.val) = true) ∧
    ∀ query other : Query, query.isComparable = true → other.isComparable = true →
      ((query == other) = true ↔ Query.Like Head.Same query other) := by
  refine ⟨⟨fun query => query.val.beq_self, fun {query other} => ?_,
    fun {first second third} => ?_⟩, fun _ _ => beq_iff_like⟩
  · exact partialEquivalence.symm query.property other.property
  · exact partialEquivalence.trans first.property second.property third.property

def mixtape : Query :=
  .mk [.field ⟨"name", some "title", none, [⟨"cached", []⟩, ⟨"live", []⟩]⟩,
      .link (.named "track") (.ofSelections [.field (.named "id"), .field (.named "id"),
        .field (.named "length")])]
    [.mk (some "Audio") (.ofSelections [.field (.named "format")]), .mk none .empty] true

def shuffledMixtape : Query :=
  .mk [.link (.named "track") (.ofSelections [.field (.named "id"), .field (.named "length"),
        .field (.named "id")]),
      .field ⟨"name", some "title", none, [⟨"live", []⟩, ⟨"cached", []⟩]⟩]
    [.mk none .empty, .mk (some "Audio") (.ofSelections [.field (.named "format")])] true

theorem beq_equivalence_shuffled :
    mixtape.isComparable = true ∧ shuffledMixtape.isComparable = true ∧
      (mixtape == shuffledMixtape) = true ∧ Query.Like Head.Same mixtape shuffledMixtape := by
  have comparable : mixtape.isComparable = true := by decide
  have comparableToo : shuffledMixtape.isComparable = true := by decide
  have equal : (mixtape == shuffledMixtape) = true := by decide
  exact ⟨comparable, comparableToo, equal,
    (beq_equivalence.2 _ _ comparable comparableToo).mp equal⟩

end Query

end GraphQuery
