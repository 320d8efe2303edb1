import GraphQuery.Proofs.Query.Equality
import GraphQuery.Proofs.Query.OneWay

/-!
Queries that hold a NaN. A selection with a NaN in its options is equal to none, itself included,
and so is a directive with a NaN in its arguments. Nothing is counted for them: a query can equal
another one that does not equal it, and both equal each other if they have equally many of them on
every level and are the same in the rest.
-/

namespace GraphQuery

theorem Value.isNaNFree_of_beq {value : Value} (keyed : value.isKeyed = true)
    (same : value.beq value = true) : value.isNaNFree = true := by
  induction value using Value.induct with
  | ofScalar value notList notObject =>
      cases value with
      | float number =>
          simp only [Value.beq] at same
          change number.beq number = true at same
          simp only [Binary64.beq, Bool.and_eq_true] at same
          exact same.1.1
      | list items => cases notList
      | object entries => cases notObject
      | _ => rfl
  | ofList items ih =>
      rw [isKeyed, every_list_iff] at keyed
      rw [beq_list_iff, List.forall₂_same] at same
      exact every_list_iff.mpr
        ⟨rfl, fun item member => ih item member (keyed.2 item member) (same item member)⟩
  | ofObject entries ih =>
      rw [isKeyed, every_object_iff] at keyed
      have names := of_decide_eq_true keyed.1
      refine every_object_iff.mpr ⟨rfl, fun entry member => ?_⟩
      obtain ⟨other, found, equal⟩ := (beq_object_iff.mp same).2 entry member
      rw [Entries.find?_of_mem names member] at found
      obtain rfl := Option.some.inj found
      exact ih entry member (keyed.2 entry member) equal

theorem sameOptions_self_eq {options? : Option (Entries Value)}
    (keyed : ∀ options ∈ options?, (Value.object options).isKeyed = true) :
    sameOptions options? options? = options?.all fun options =>
      (Value.object options).isNaNFree := by
  cases options? with
  | none => rfl
  | some options =>
      exact Bool.eq_iff_iff.mpr
        ⟨Value.isNaNFree_of_beq (keyed _ rfl), Value.beq_refl (keyed _ rfl)⟩

def Directive.isLoose (directive : Directive) : Bool :=
  !(Value.object directive.arguments).isNaNFree

theorem Directive.beq_self_eq {directive : Directive}
    (keyed : (Value.object directive.arguments).isKeyed = true) :
    (directive == directive) = !directive.isLoose := by
  rw [isLoose, Bool.not_not, Bool.eq_iff_iff]
  exact ⟨fun same => Value.isNaNFree_of_beq keyed (beq_iff.mp same).2, beq_refl keyed⟩

namespace Selection

/-- Whether a NaN stands in the options of a selection, so that it is not even equal to itself. -/
def isLoose (selection : Selection) : Bool :=
  !selection.options?.all fun options => (Value.object options).isNaNFree

theorem sameBy_self_eq {selection : Selection} (keyed : selection.head.isKeyed = true) :
    sameBy (· == ·) selection selection = !selection.isLoose := by
  have heads : (selection.head == selection.head) = !selection.isLoose := by
    rw [isLoose, Bool.not_not, options?, ← sameOptions_self_eq (Head.isKeyed_options keyed),
      Bool.eq_iff_iff, Head.beq_iff]
    exact ⟨fun same => same.2.2.1, fun same => ⟨rfl, rfl, same, sameItems_self⟩⟩
  cases selection with
  | field head => exact heads
  | link head query =>
      rw [sameBy, Query.beq_self, Bool.and_true]
      exact heads

end Selection

/-! Equality in both directions -/

structure Head.Even (head other : Head) : Prop where
  name : head.name = other.name
  alias? : head.alias? = other.alias?
  options : sameOptions head.options? other.options? = true
  loose : head.directives.countP Directive.isLoose = other.directives.countP Directive.isLoose
  firm : Paired (fun directive other => (directive == other) = true)
    (head.directives.filter fun directive => !directive.isLoose)
    (other.directives.filter fun directive => !directive.isLoose)

/-- Queries that have on every level equally many selections with a NaN in their options, and whose
other selections and fragments can be paired off. -/
inductive Query.Even : Query → Query → Prop
  | mk {selections others : List Selection} {fragments fragmentsToo : List Fragment}
      {ordered : Bool} : selections.countP Selection.isLoose = others.countP Selection.isLoose →
      Paired (Selection.Like Head.Even Query.Even)
        (selections.filter fun selection => !selection.isLoose)
        (others.filter fun selection => !selection.isLoose) →
      Paired (Fragment.Like Query.Even) fragments fragmentsToo →
      Even (.mk selections fragments ordered) (.mk others fragmentsToo ordered)

theorem Head.oneWay : OneWay (fun head : Head => head.isKeyed = true) (· == ·) Head.Even := by
  have labels : PartialEquivalence (fun head : Head => head.isKeyed = true) fun head other =>
      head.name == other.name && head.alias? == other.alias? &&
        sameOptions head.options? other.options? := by
    constructor
    · intro head other keyed keyedToo equal
      simp only [Bool.and_eq_true, beq_iff_eq] at equal ⊢
      exact ⟨⟨equal.1.1.symm, equal.1.2.symm⟩,
        sameOptions_symm (isKeyed_options keyed) (isKeyed_options keyedToo) equal.2⟩
    · intro first second third _ _ _ equal onward
      simp only [Bool.and_eq_true, beq_iff_eq] at equal onward ⊢
      exact ⟨⟨equal.1.1.trans onward.1.1, equal.1.2.trans onward.1.2⟩,
        sameOptions_trans equal.2 onward.2⟩
  refine (labels.oneWay.both Directive.partialEquivalence.oneWay.ofLists (fun head => head)
    Head.directives).restate ?_ (fun _ _ _ _ => rfl) fun head other keyed keyedToo => ?_
  · exact fun head keyed => ⟨keyed, fun directive => isKeyed_of_directive keyed⟩
  · rw [evened_iff_loose
      (fun directive member => Directive.beq_self_eq (isKeyed_of_directive keyed member))
      fun directive member => Directive.beq_self_eq (isKeyed_of_directive keyedToo member)]
    simp only [Bool.and_eq_true, beq_iff_eq]
    constructor
    · rintro ⟨name, key, options, loose, firm⟩
      exact ⟨⟨⟨name, key⟩, options⟩, loose, firm⟩
    · rintro ⟨⟨⟨name, key⟩, options⟩, loose, firm⟩
      exact ⟨name, key, options, loose, firm⟩

section Below

variable {among : Query → Prop} {same : Query → Query → Bool} {alike : Query → Query → Prop}
  (below : OneWay among same alike)

include below

theorem Selection.oneWay : OneWay
    (fun selection : Selection => selection.head.isKeyed = true ∧
      ∀ query ∈ selection.inner?, among query)
    (sameBy same) (Selection.Like Head.Even alike) := by
  refine (Head.oneWay.both below.ofOptions Selection.head Selection.inner?).restate
    (fun _ known => known) ?_ ?_
  · intro selection other _ _
    cases selection with
    | field head => cases other <;> simp [sameBy, sameOption, Selection.head, inner?]
    | link head query => cases other <;> simp [sameBy, sameOption, Selection.head, inner?]
  · intro selection other _ _
    constructor
    · rintro (held | ⟨held, inner⟩)
      · exact ⟨held, .none⟩
      · exact ⟨held, .some inner⟩
    · rintro ⟨held, inner⟩
      cases selection <;> cases other <;> cases inner
      · exact .field held
      · rename_i inner
        exact .link held inner

theorem Fragment.oneWay : OneWay (fun fragment : Fragment => among fragment.query) (sameBy same)
    (Fragment.Like alike) := by
  refine (PartialEquivalence.ofLawful.oneWay.both below Fragment.typeName? Fragment.query).restate
    (fun _ known => ⟨trivial, known⟩) (fun _ _ _ _ => rfl) ?_
  rintro ⟨typeName?, query⟩ ⟨otherName?, otherQuery⟩ _ _
  constructor
  · rintro ⟨held⟩
    exact ⟨beq_self_eq_true _, held⟩
  · rintro ⟨sameName, held⟩
    obtain rfl : typeName? = otherName? := eq_of_beq sameName
    exact .mk held

end Below

namespace Query

theorem keyed_iff {query : Query} : query.isKeyed = true ↔
    (∀ selection ∈ query.selections, selection.every Head.isKeyed = true) ∧
      ∀ fragment ∈ query.fragments, fragment.query.isKeyed = true := by
  obtain ⟨selections, fragments, ordered⟩ := query
  exact every_mk_iff

theorem even_iff {query other : Query} (keyed : query.isKeyed = true)
    (keyedToo : other.isKeyed = true) : query.Even other ↔ query.ordered = other.ordered ∧
    Evened (Selection.sameBy (· == ·)) (Selection.Like Head.Even Query.Even) query.selections
      other.selections ∧
    Paired (Fragment.Like Query.Even) query.fragments other.fragments := by
  have heads : ∀ query : Query, query.isKeyed = true → ∀ selection ∈ query.selections,
      Selection.sameBy (· == ·) selection selection = !selection.isLoose :=
    fun query keyed selection member =>
      Selection.sameBy_self_eq (Selection.every_head ((keyed_iff.mp keyed).1 selection member))
  rw [evened_iff_loose (heads query keyed) (heads other keyedToo)]
  constructor
  · rintro ⟨loose, selections, fragments⟩
    exact ⟨rfl, ⟨loose, selections⟩, fragments⟩
  · rintro ⟨sameOrder, ⟨loose, selections⟩, fragments⟩
    obtain ⟨ownSelections, ownFragments, ordered⟩ := query
    obtain ⟨otherSelections, otherFragments, orderedToo⟩ := other
    obtain rfl : ordered = orderedToo := sameOrder
    exact .mk loose selections fragments

theorem evened_fragments_iff {alike : Fragment → Fragment → Prop}
    {fragments others : List Fragment} :
    Evened (Fragment.sameBy (· == ·)) alike fragments others ↔ Paired alike fragments others := by
  have all : ∀ fragments : List Fragment,
      selfEqual (Fragment.sameBy (· == ·)) fragments = fragments := fun fragments =>
    selfEqual_eq_self fun fragment _ => fragment.sameBy_self
  constructor
  · rintro ⟨_, paired⟩
    rwa [all, all] at paired
  · intro paired
    refine ⟨paired.length_eq, ?_⟩
    rwa [all, all]

theorem oneWay_within (bound : Nat) : OneWay
    (fun query : Query => query.isKeyed = true ∧ query.height ≤ bound) (· == ·) Query.Even := by
  induction bound with
  | zero =>
      have nothing : ∀ query : Query, ¬(query.isKeyed = true ∧ query.height ≤ 0) :=
        fun query known => Nat.not_le_of_gt query.height_pos known.2
      have order : PartialEquivalence (fun _ : Query => True) fun query other =>
          query.ordered == other.ordered :=
        ⟨fun _ _ equal => BEq.symm equal, fun _ _ _ equal onward => BEq.trans equal onward⟩
      exact order.oneWay.restate (fun _ _ => trivial)
        (fun query _ known => (nothing query known).elim)
        (fun query _ known => (nothing query known).elim)
  | succ bound ih =>
      refine (PartialEquivalence.ofLawful.oneWay.both ((Selection.oneWay ih).ofLists.both
        (Fragment.oneWay ih).ofLists selections fragments) ordered (fun query => query)).restate
          ?_ ?_ ?_
      · rintro query ⟨keyed, low⟩
        rw [keyed_iff] at keyed
        rw [height_le_iff] at low
        refine ⟨trivial, fun selection member => ?_, fun fragment member =>
          ⟨keyed.2 fragment member, low.2 fragment member⟩⟩
        refine ⟨Selection.every_head (keyed.1 selection member), fun inner found => ?_⟩
        cases selection with
        | field head => cases found
        | link head query =>
            obtain rfl := Option.some.inj found
            exact ⟨(Selection.every_link_iff.mp (keyed.1 _ member)).2, low.1 head _ member⟩
      · intro query other _ _
        rw [Bool.eq_iff_iff, beq_iff, Bool.and_eq_true, Bool.and_eq_true, beq_iff_eq]
      · intro query other known knownToo
        rw [even_iff known.1 knownToo.1, evened_fragments_iff, beq_iff_eq]

/-- Queries equal each other exactly if they are even. -/
theorem beq_both_iff {query other : Query} (keyed : query.isKeyed = true)
    (keyedToo : other.isKeyed = true) :
    ((query == other) = true ∧ (other == query) = true) ↔ query.Even other := by
  have comparison := oneWay_within (max query.height other.height)
  have known := And.intro keyed (Nat.le_max_left query.height other.height)
  have knownToo := And.intro keyedToo (Nat.le_max_right query.height other.height)
  constructor
  · rintro ⟨equal, back⟩
    exact comparison.back known knownToo equal (.single ⟨knownToo, known, back⟩)
  · intro even
    exact ⟨comparison.holds known knownToo even,
      comparison.holds knownToo known (comparison.symm known knownToo even)⟩

end Query

namespace Selection

def LooseOrNaNFree (selection : Selection) : Prop :=
  selection.every Head.isKeyed = true ∧
    (selection.isLoose = true ∨ selection.every Head.isNaNFree = true)

theorem comparable_of_every {selection : Selection} (keyed : selection.every Head.isKeyed = true)
    (numbers : selection.every Head.isNaNFree = true) :
    selection.head.isComparable = true ∧
      ∀ query ∈ selection.inner?, query.isComparable = true := by
  refine ⟨(Bool.and_eq_true _ _).mpr ⟨every_head keyed, every_head numbers⟩, ?_⟩
  intro query below
  cases selection with
  | field head => cases below
  | link head inner =>
      obtain rfl := Option.some.inj below
      exact Query.every_and (every_link_iff.mp keyed).2 (every_link_iff.mp numbers).2

variable {selection other : Selection}

theorem options_of_sameBy {below : Query → Query → Bool}
    (same : sameBy below selection other = true) :
    sameOptions selection.options? other.options? = true := by
  cases selection with
  | field head =>
      cases other with
      | field otherHead => exact (Head.beq_iff.mp same).2.2.1
      | link _ _ => cases same
  | link head query =>
      cases other with
      | field _ => cases same
      | link otherHead otherQuery =>
          rw [sameBy, Bool.and_eq_true] at same
          exact (Head.beq_iff.mp same.1).2.2.1

/-- A loose selection is equal to none. -/
theorem isLoose_eq_false (keyed : selection.head.isKeyed = true)
    (keyedToo : other.head.isKeyed = true)
    (same : sameOptions selection.options? other.options? = true) : selection.isLoose = false := by
  have options := Head.isKeyed_options keyed
  have itself := sameOptions_trans same
    (sameOptions_symm options (Head.isKeyed_options keyedToo) same)
  have numbers := (sameOptions_self_eq options).symm.trans itself
  exact congrArg not numbers

theorem comparable_of_sameBy {below : Query → Query → Bool} (known : selection.LooseOrNaNFree)
    (knownToo : other.LooseOrNaNFree) (same : sameBy below selection other = true) :
    (selection.head.isComparable = true ∧
      ∀ query ∈ selection.inner?, query.isComparable = true) ∧
    other.head.isComparable = true ∧ ∀ query ∈ other.inner?, query.isComparable = true := by
  have keyed := every_head known.1
  have keyedToo := every_head knownToo.1
  have options := options_of_sameBy same
  have back := sameOptions_symm (Head.isKeyed_options keyed) (Head.isKeyed_options keyedToo) options
  have firm := isLoose_eq_false keyed keyedToo options
  have firmToo := isLoose_eq_false keyedToo keyed back
  constructor
  · exact comparable_of_every known.1 (known.2.resolve_left (by simp [firm]))
  · exact comparable_of_every knownToo.1 (knownToo.2.resolve_left (by simp [firmToo]))

theorem partialEquivalence_loose : PartialEquivalence LooseOrNaNFree (sameBy (· == ·)) where
  symm known knownToo same := by
    obtain ⟨comparable, comparableToo⟩ := comparable_of_sameBy known knownToo same
    exact (partialEquivalence Query.partialEquivalence).symm comparable comparableToo same
  trans known knownToo knownLast same onward := by
    obtain ⟨comparable, comparableToo⟩ := comparable_of_sameBy known knownToo same
    obtain ⟨_, comparableLast⟩ := comparable_of_sameBy knownToo knownLast onward
    exact (partialEquivalence Query.partialEquivalence).trans comparable comparableToo
      comparableLast same onward

theorem length_selfEqual {selections : List Selection}
    (known : ∀ selection ∈ selections, selection.LooseOrNaNFree) :
    (selfEqual (sameBy (· == ·)) selections).length + selections.countP isLoose =
      selections.length := by
  have firm : selfEqual (sameBy (· == ·)) selections = selections.filter fun selection =>
      !selection.isLoose :=
    List.filter_congr fun selection member =>
      sameBy_self_eq (every_head (known selection member).1)
  rw [firm, ← List.countP_eq_length_filter, Nat.add_comm,
    List.length_eq_countP_add_countP isLoose]
  congr 2
  funext selection
  simp

end Selection

namespace Query

/-- A NaN stands in options of the selections of a query, if at all: in nothing else that these
selections hold, and in no fragment. -/
structure LooseOnTop (query : Query) : Prop where
  selections : ∀ selection ∈ query.selections, selection.LooseOrNaNFree
  fragments : ∀ fragment ∈ query.fragments, fragment.query.isComparable = true

theorem beq_back_iff_of_looseOnTop {query other : Query} (known : query.LooseOnTop)
    (knownToo : other.LooseOnTop) (equal : (query == other) = true) : (other == query) = true ↔
      query.selections.countP Selection.isLoose = other.selections.countP Selection.isLoose := by
  obtain ⟨ordered, selections, fragments⟩ := beq_iff.mp equal
  have lengths := (sameItems_iff.mp selections).1
  have counted := Selection.length_selfEqual known.selections
  have countedToo := Selection.length_selfEqual knownToo.selections
  have back := (Fragment.partialEquivalence partialEquivalence).ofLists.symm
    (fun fragment member => ⟨known.fragments fragment member, fragment.sameBy_self⟩)
    (fun fragment member => ⟨knownToo.fragments fragment member, fragment.sameBy_self⟩) fragments
  rw [beq_iff, Selection.partialEquivalence_loose.sameItems_back_iff known.selections
    knownToo.selections selections]
  constructor
  · rintro ⟨_, same, _⟩
    omega
  · intro same
    exact ⟨ordered.symm, by omega, back⟩

/-- When a query equals another one, the other one equals the query exactly if they are even: on
every level as many selections of both have a NaN in their options, and as many directives in their
arguments, and the rest is the same. Where a NaN stands in options of their own selections if at
all, nothing but these options has to be counted. -/
theorem beq_back_iff {query other : Query} (equal : (query == other) = true) :
    (query.isKeyed = true → other.isKeyed = true →
      ((other == query) = true ↔ query.Even other)) ∧
    (query.LooseOnTop → other.LooseOnTop →
      ((other == query) = true ↔ query.selections.countP Selection.isLoose =
        other.selections.countP Selection.isLoose)) := by
  refine ⟨fun keyed keyedToo => ?_, fun known knownToo =>
    beq_back_iff_of_looseOnTop known knownToo equal⟩
  rw [← beq_both_iff keyed keyedToo, and_iff_right equal]

def notANumber : Value := .float ⟨0x7ff8000000000000⟩

def noisy (name : String) : Selection :=
  .field ⟨name, none, some [("gain", notANumber)], []⟩

def titled : Selection :=
  .field (.named "title")

def faded (selections : List Selection) : Query :=
  .ofSelections [.link ⟨"track", none, none, [⟨"fade", [("gain", notANumber)]⟩]⟩
    (.ofSelections selections)]

theorem looseOnTop_noisy {selections : List Selection}
    (each : ∀ selection ∈ selections, selection = titled ∨ ∃ name, selection = noisy name) :
    (ofSelections selections).LooseOnTop where
  selections selection member := by
    rcases each selection member with rfl | ⟨name, rfl⟩
    · exact ⟨rfl, .inr rfl⟩
    · exact ⟨rfl, .inl rfl⟩
  fragments fragment member := by cases member

theorem beq_back_noisy :
    (faded [noisy "volume", titled] == faded [titled, noisy "pitch"]) = true ∧
      (faded [titled, noisy "pitch"] == faded [noisy "volume", titled]) = true ∧
      (faded [noisy "volume", titled]).Even (faded [titled, noisy "pitch"]) ∧
      (faded [titled] == faded [noisy "volume"]) = true ∧
      ¬(faded [titled]).Even (faded [noisy "volume"]) ∧
      (ofSelections [noisy "volume", titled] == ofSelections [titled, noisy "pitch"]) = true ∧
      (ofSelections [titled, noisy "pitch"] == ofSelections [noisy "volume", titled]) = true := by
  have equal : (faded [noisy "volume", titled] == faded [titled, noisy "pitch"]) = true := by
    decide
  have back : (faded [titled, noisy "pitch"] == faded [noisy "volume", titled]) = true := by decide
  have equalToo : (faded [titled] == faded [noisy "volume"]) = true := by decide
  have noWay : ¬(faded [noisy "volume"] == faded [titled]) = true := by decide
  have onTop : (ofSelections [noisy "volume", titled] ==
      ofSelections [titled, noisy "pitch"]) = true := by decide
  have even := ((beq_back_iff equal).1 (by decide) (by decide)).mp back
  have uneven := (not_congr ((beq_back_iff equalToo).1 (by decide) (by decide))).mp noWay
  have known : (ofSelections [noisy "volume", titled]).LooseOnTop := looseOnTop_noisy (by simp)
  have knownToo : (ofSelections [titled, noisy "pitch"]).LooseOnTop := looseOnTop_noisy (by simp)
  exact ⟨equal, back, even, equalToo, uneven, onTop,
    ((beq_back_iff onTop).2 known knownToo).mpr rfl⟩

/-- A field that is not equal to itself leaves open what stands in its place on the other side. -/
theorem beq_not_symm :
    (ofSelections [noisy "volume"]).isKeyed = true ∧ (ofSelections [titled]).isKeyed = true ∧
      (ofSelections [noisy "volume"] == ofSelections [titled]) = true ∧
      (ofSelections [titled] == ofSelections [noisy "volume"]) = false := by
  decide

end Query

end GraphQuery
