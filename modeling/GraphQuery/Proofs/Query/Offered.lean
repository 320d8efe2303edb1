import GraphQuery.Proofs.Query.Meaning

/-!
Where the selections of merged queries come from when hoisting is allowed. What a merged query
selects for an object was selected for it before, or was hoisted out of a fragment, whether or not
the object matches that.
-/

namespace GraphQuery

inductive Query.Applies (matches? : String → Prop) : Query → Selection → Prop
  | own {query : Query} {selection : Selection} : selection ∈ query.selections →
      Applies matches? query selection
  | fragment {query : Query} {fragment : Fragment} {selection : Selection} :
      fragment ∈ query.fragments → (∀ typeName ∈ fragment.typeName?, matches? typeName) →
      Applies matches? fragment.query selection → Applies matches? query selection

inductive Query.Reaches {α : Type} (matched : α → String → Prop) :
    Query → List (α × Step) → Query → Prop
  | here {query : Query} : Reaches matched query [] query
  | link {query inner level : Query} {head : Head} {object : α} {step : Step}
      {path : List (α × Step)} : query.Applies (matched object) (.link head inner) →
      head.takes step = true → Reaches matched inner path level →
      Reaches matched query ((object, step) :: path) level

def Query.Shows {α : Type} (matched : α → String → Prop) (query : Query)
    (before : List (α × Step)) (object : α) (selection : Selection) : Prop :=
  ∃ level, query.Reaches matched before level ∧ level.Applies (matched object) selection

def Selection.step (selection : Selection) : Step :=
  ⟨selection.resultKey, selection.name, selection.options?⟩

section Shows

variable {α : Type} {matched : α → String → Prop} {query level : Query} {fragment : Fragment}
  {before path : List (α × Step)} {object : α} {step : Step} {selection : Selection}

theorem Query.applies_mk_iff {matches? : String → Prop} {selections : List Selection}
    {fragments : List Fragment} {ordered : Bool} :
    (mk selections fragments ordered).Applies matches? selection ↔ selection ∈ selections ∨
      ∃ fragment ∈ fragments, (∀ typeName ∈ fragment.typeName?, matches? typeName) ∧
        fragment.query.Applies matches? selection := by
  constructor
  · intro applies
    cases applies with
    | own member => exact .inl member
    | fragment member applies inside => exact .inr ⟨_, member, applies, inside⟩
  · rintro (member | ⟨fragment, member, applies, inside⟩)
    · exact .own member
    · exact .fragment member applies inside

theorem Query.shows_nil_iff :
    query.Shows matched [] object selection ↔ query.Applies (matched object) selection := by
  constructor
  · rintro ⟨level, reaches, applies⟩
    cases reaches
    exact applies
  · exact fun applies => ⟨query, .here, applies⟩

theorem Query.Reaches.ofFragment {first : α × Step} (member : fragment ∈ query.fragments)
    (applies : ∀ typeName ∈ fragment.typeName?, matched first.1 typeName)
    (reaches : fragment.query.Reaches matched (first :: path) level) :
    query.Reaches matched (first :: path) level := by
  cases reaches with
  | link inside takes deeper => exact .link (.fragment member applies inside) takes deeper

theorem Query.selectsFor_of_applies (applies : query.Applies (matched object) selection)
    (leads : selection.Leads matched ((object, step) :: path)) :
    query.SelectsFor matched ((object, step) :: path) := by
  induction applies with
  | own member => exact leads.selectsFor member
  | fragment member applies _ ih => exact .fragment member applies (ih leads)

theorem Query.Shows.selectsFor (shows : query.Shows matched before object selection)
    (takes : selection.head.takes step = true) :
    query.SelectsFor matched (before ++ [(object, step)]) := by
  obtain ⟨level, reaches, applies⟩ := shows
  induction reaches with
  | here => exact selectsFor_of_applies applies (.last takes)
  | link inside takesLink _ ih => exact selectsFor_of_applies inside (.link takesLink (ih applies))

theorem Query.SelectsFor.exists_shows
    (selects : query.SelectsFor matched (before ++ [(object, step)])) :
    ∃ selection, query.Shows matched before object selection ∧
      selection.head.takes step = true := by
  generalize whole : before ++ [(object, step)] = path at selects
  induction selects generalizing before with
  | @last query selection other stepToo member takes =>
      cases before with
      | nil =>
          cases whole
          exact ⟨selection, ⟨query, .here, .own member⟩, takes⟩
      | cons first rest => simp at whole
  | @link query head inner other stepToo path member takes below ih =>
      cases before with
      | nil =>
          cases whole
          obtain ⟨_, _, _, none⟩ := below.exists_cons
          cases none
      | cons first rest =>
          cases whole
          obtain ⟨selection, ⟨level, reaches, applies⟩, takesToo⟩ := ih rfl
          exact ⟨selection, ⟨level, .link (.own member) takes reaches, applies⟩, takesToo⟩
  | @fragment query fragment other stepToo path member applies _ ih =>
      obtain ⟨selection, ⟨level, reaches, inside⟩, takes⟩ := ih whole
      cases before with
      | nil =>
          cases whole
          cases reaches
          exact ⟨selection, ⟨query, .here, .fragment member applies inside⟩, takes⟩
      | cons first rest =>
          cases whole
          exact ⟨selection, ⟨level, reaches.ofFragment member applies, inside⟩, takes⟩

end Shows

namespace MergePolicy

section Offers

variable {α κ ε : Type} {policy : MergePolicy κ ε} {place there : κ} {matches? : String → Prop}
  {query inner : Query} {selection : Selection} {typeName : String}

/-- The place of what is in a fragment, which is that of the fragment if it is expanded. -/
def within (policy : MergePolicy κ ε) (place : κ) (typeName : String) : κ :=
  match policy.treatment place typeName with
  | .expand => place
  | _ => policy.inside place typeName

/-- A selection, with its place, that a query makes for objects that match some type names, or that
is hoisted there out of a fragment on whatever name. -/
inductive Offers (policy : MergePolicy κ ε) (matches? : String → Prop) :
    κ → Query → κ → Selection → Prop
  | own {place : κ} {query : Query} {selection : Selection} : selection ∈ query.selections →
      Offers policy matches? place query place selection
  | unconditional {place there : κ} {query inner : Query} {selection : Selection} :
      .mk none inner ∈ query.fragments → Offers policy matches? place inner there selection →
      Offers policy matches? place query there selection
  | matching {place there : κ} {query inner : Query} {typeName : String} {selection : Selection} :
      .mk (some typeName) inner ∈ query.fragments → matches? typeName →
      Offers policy matches? (policy.within place typeName) inner there selection →
      Offers policy matches? place query there selection
  | hoisted {place : κ} {query inner : Query} {typeName : String} {selection : Selection} :
      .mk (some typeName) inner ∈ query.fragments → selection ∈ policy.taken place typeName inner →
      Offers policy matches? place query place selection

inductive OffersBelow (policy : MergePolicy κ ε) (matched : α → String → Prop) :
    κ → Query → List (α × Step) → κ → Query → Prop
  | here {place : κ} {query : Query} : OffersBelow policy matched place query [] place query
  | link {place here there : κ} {query inner level : Query} {head : Head} {object : α}
      {step : Step} {path : List (α × Step)} :
      policy.Offers (matched object) place query here (.link head inner) →
      head.takes step = true →
      OffersBelow policy matched (policy.below here head.name) inner path there level →
      OffersBelow policy matched place query ((object, step) :: path) there level

def Offered (policy : MergePolicy κ ε) (matched : α → String → Prop) (place : κ) (query : Query)
    (before : List (α × Step)) (object : α) (selection : Selection) : Prop :=
  ∃ here level there, policy.OffersBelow matched place query before here level ∧
    policy.Offers (matched object) here level there selection

theorem within_of_expand (treated : policy.treatment place typeName = .expand) :
    policy.within place typeName = place := by
  simp only [within, treated]

theorem within_of_kept (kept : policy.treatment place typeName ≠ .expand) :
    policy.within place typeName = policy.inside place typeName := by
  rw [within]
  split
  · exact (kept ‹_›).elim
  · rfl

theorem exists_offers_of_applies (policy : MergePolicy κ ε) (place : κ)
    (applies : query.Applies matches? selection) :
    ∃ there, policy.Offers matches? place query there selection := by
  induction applies generalizing place with
  | own member => exact ⟨place, .own member⟩
  | @fragment query fragment selection member applies _ ih =>
      obtain ⟨_ | typeName, inner⟩ := fragment
      · obtain ⟨there, offers⟩ := ih place
        exact ⟨there, .unconditional member offers⟩
      · obtain ⟨there, offers⟩ := ih (policy.within place typeName)
        exact ⟨there, .matching member (applies typeName rfl) offers⟩

theorem offered_of_shows {matched : α → String → Prop} {before : List (α × Step)} {object : α}
    (policy : MergePolicy κ ε) (place : κ) (shows : query.Shows matched before object selection) :
    policy.Offered matched place query before object selection := by
  obtain ⟨level, reaches, applies⟩ := shows
  induction reaches generalizing place with
  | here =>
      obtain ⟨there, offers⟩ := exists_offers_of_applies policy place applies
      exact ⟨place, _, there, .here, offers⟩
  | link inside takes _ ih =>
      obtain ⟨there, link⟩ := exists_offers_of_applies policy place inside
      obtain ⟨here, level, last, below, offers⟩ := ih (policy.below there _) applies
      exact ⟨here, level, last, .link link takes below, offers⟩

theorem Offers.of_remaining {outer : κ}
    (offers : policy.Offers matches? place (policy.remaining outer typeName query) there
      selection) : policy.Offers matches? place query there selection := by
  rw [remaining] at offers
  split at offers
  · cases offers with
    | own member => exact .own (List.mem_filter.mp member).1
    | unconditional member inside => exact .unconditional member inside
    | matching member matched inside => exact .matching member matched inside
    | hoisted member taken => exact .hoisted member taken
  · exact offers

variable (expands : ∀ typeName, policy.treatment place typeName = .expand → matches? typeName)

include expands

theorem Offers.of_part (member : .own selection ∈ policy.parts place query) :
    policy.Offers matches? place query place selection := by
  induction query using Query.inductFragments with
  | step query ih =>
      rcases mem_parts_iff.mp member with ⟨found, own, same⟩ | ⟨fragment, inside, ofFragment⟩
      · cases same
        exact .own own
      · cases ofFragment with
        | unconditional member => exact .unconditional inside (ih _ inside member)
        | expanded treated member =>
            refine .matching inside (expands _ treated) ?_
            rw [within_of_expand treated]
            exact ih _ inside member
        | hoisted treated own shared =>
            exact .hoisted inside (mem_taken_iff.mpr ⟨_, treated, own, shared⟩)

theorem Offers.of_group (member : .group typeName inner ∈ policy.parts place query)
    (matched : matches? typeName)
    (offers : policy.Offers matches? (policy.inside place typeName) inner there selection) :
    policy.Offers matches? place query there selection := by
  have kept := within_of_kept (not_expanded_of_group member)
  induction query using Query.inductFragments with
  | step query ih =>
      rcases mem_parts_iff.mp member with ⟨found, own, same⟩ | ⟨fragment, inside, ofFragment⟩
      · cases same
      · cases ofFragment with
        | unconditional member => exact .unconditional inside (ih _ inside member)
        | expanded treated member =>
            refine .matching inside (expands _ treated) ?_
            rw [within_of_expand treated]
            exact ih _ inside member
        | @specific _ shared inner treated =>
            rw [← kept] at offers
            have whole : specific shared inner = policy.remaining place typeName inner := by
              simp only [remaining, treated]
            rw [whole] at offers
            exact .matching inside matched offers.of_remaining
        | kept _ =>
            rw [← kept] at offers
            exact .matching inside matched offers

end Offers

/-- Objects of a kind are at a place: fragments are expanded there only if they all match, and what
they match they are at inside. -/
structure Conforms {α κ ε : Type} (policy : MergePolicy κ ε) (matched : α → String → Prop)
    (isAt : α → κ → Prop) : Prop where
  expand : ∀ object place typeName, isAt object place →
    policy.treatment place typeName = .expand → matched object typeName
  inside : ∀ object place typeName, isAt object place → matched object typeName →
    isAt object (policy.inside place typeName)

section Joining

variable {α κ : Type} {policy : MergePolicy κ MergeError} {matched : α → String → Prop}
  {isAt : α → κ → Prop} {place : κ} {queries : List Query} {merged level : Query} {object : α}
  {found selection : Selection} {before : List (α × Step)}

/-- A selection that a merged query makes for an object stands on a level that was merged from
selections which are offered there. -/
theorem exists_level (joins : policy.combine = Slot.join) (conforms : policy.Conforms matched isAt)
    (keyed : ∀ query ∈ queries, query.isKeyed = true) (here : isAt object place)
    (done : policy.merge place queries = .ok merged)
    (applies : merged.Applies (matched object) found) : ∃ there others level,
      isAt object there ∧ (∀ query ∈ others, query.isKeyed = true) ∧
      policy.Merges there others level ∧ found ∈ level.selections ∧
      ∀ selection, .own selection ∈ policy.partsAt there others →
        ∃ query ∈ queries, policy.Offers (matched object) place query there selection := by
  induction queries using Query.inductAll generalizing place merged with
  | step queries ih =>
      have merges := merges_of_merge joins done
      have expands := conforms.expand object place
      cases applies with
      | own member =>
          refine ⟨place, queries, merged, here, keyed, merges, member, fun selection own => ?_⟩
          obtain ⟨query, given, inside⟩ := List.mem_flatMap.mp own
          exact ⟨query, given, .of_part (fun _ => expands _ here) inside⟩
      | fragment member applies inside =>
          obtain ⟨typeName, known, finishes⟩ := merges.of_fragment member
          cases finishes with
          | mk doneInner =>
              have matches? := applies typeName rfl
              obtain ⟨there, others, level, isThere, keyedOthers, mergesLevel, own, each⟩ :=
                ih _ (heightOfAll_lt_of_queriesOn known)
                  (fun query member => every_of_queriesOn keyed member)
                  (conforms.inside _ _ _ here matches?) doneInner inside
              refine ⟨there, others, level, isThere, keyedOthers, mergesLevel, own, ?_⟩
              intro selection part
              obtain ⟨inner, member, offers⟩ := each selection part
              obtain ⟨query, given, group⟩ :=
                List.mem_flatMap.mp (Part.mem_queriesOn_iff.mp member)
              exact ⟨query, given, .of_group (fun _ => expands _ here) group matches? offers⟩

theorem exists_merged_below (joins : policy.combine = Slot.join)
    (conforms : policy.Conforms matched isAt) (keyed : ∀ query ∈ queries, query.isKeyed = true)
    (done : policy.merge place queries = .ok merged) (reaches : merged.Reaches matched before level)
    {step : Step} (starts : ∀ first ∈ (before ++ [(object, step)]).head?, isAt first.1 place)
    (linked : (before ++ [(object, step)]).IsChain fun first second =>
      ∀ place, isAt first.1 place → isAt second.1 (policy.below place first.2.name)) :
    ∃ there others, isAt object there ∧ (∀ query ∈ others, query.isKeyed = true) ∧
      policy.merge there others = .ok level ∧
      ∀ other ∈ others, ∃ query ∈ queries,
        policy.OffersBelow matched place query before there other := by
  induction reaches generalizing place queries with
  | here =>
      exact ⟨place, queries, starts _ rfl, keyed, done, fun other member => ⟨other, member, .here⟩⟩
  | @link merged inner level head first firstStep path applies takes _ ih =>
      obtain ⟨there, others, levelHere, isThere, keyedOthers, merges, own, each⟩ :=
        exists_level joins conforms keyed (starts _ rfl) done applies
      -- what the link leads to was merged from what all links under its key lead to
      obtain ⟨inners, doneInner, _, made⟩ := merges.of_link own
      have name : head.name = firstStep.name := (Head.takes_iff.mp takes).2.1
      have keyedInners : ∀ query ∈ inners, query.isKeyed = true := by
        intro query member
        obtain ⟨headToo, under⟩ := (made query).mp member
        exact every_of_link keyedOthers under
      have startsNext : ∀ next ∈ (path ++ [(object, step)]).head?,
          isAt next.1 (policy.below there head.name) := by
        intro next found
        rw [name]
        exact linked.rel_head? found there isThere
      obtain ⟨last, lasts, isLast, keyedLasts, doneLast, eachLast⟩ :=
        ih keyedInners doneInner startsNext linked.tail
      refine ⟨last, lasts, isLast, keyedLasts, doneLast, fun other member => ?_⟩
      obtain ⟨innerQuery, memberInner, below⟩ := eachLast other member
      obtain ⟨headToo, under⟩ := (made innerQuery).mp memberInner
      have takesToo := merges.takes_back keyedOthers own under takes
      have nameToo : headToo.name = head.name := (Head.takes_iff.mp takesToo).2.1.trans name.symm
      obtain ⟨query, given, offers⟩ := each _ (own_of_under under)
      rw [← nameToo] at below
      exact ⟨query, given, .link offers takesToo below⟩

theorem exists_offered_of_shows (joins : policy.combine = Slot.join)
    (conforms : policy.Conforms matched isAt) (keyed : ∀ query ∈ queries, query.isKeyed = true)
    (done : policy.merge place queries = .ok merged)
    (shows : merged.Shows matched before object found)
    {step : Step} (starts : ∀ first ∈ (before ++ [(object, step)]).head?, isAt first.1 place)
    (linked : (before ++ [(object, step)]).IsChain fun first second =>
      ∀ place, isAt first.1 place → isAt second.1 (policy.below place first.2.name)) :
    ∃ query ∈ queries, ∃ selection, policy.Offered matched place query before object selection ∧
      selection.resultKey = found.resultKey ∧
      ∀ other : Selection, other.agrees selection = other.agrees found := by
  obtain ⟨level, reaches, applies⟩ := shows
  obtain ⟨here, others, isHere, keyedOthers, doneLevel, below⟩ :=
    exists_merged_below joins conforms keyed done reaches starts linked
  obtain ⟨there, lasts, last, _, _, merges, own, each⟩ :=
    exists_level joins conforms keyedOthers isHere doneLevel applies
  obtain ⟨first, rest, part, key, kind, head, _⟩ := merges.exists_first own
  obtain ⟨other, member, offers⟩ := each first part
  obtain ⟨query, given, reachesToo⟩ := below other member
  refine ⟨query, given, first, ⟨here, other, there, reachesToo, offers⟩, key, fun selection => ?_⟩
  rw [Selection.agrees, Selection.agrees, kind, head, Head.agrees, Head.agrees, Head.name_joinedTo,
    Head.options?_joinedTo]

/-- If all that queries make or hoist for an object below a path under one key means the same, then
the merged query makes a selection under that key, and it means that too. -/
theorem shows_of_single (joins : policy.combine = Slot.join)
    (conforms : policy.Conforms matched isAt) (keyed : ∀ query ∈ queries, query.isKeyed = true)
    (done : policy.merge place queries = .ok merged)
    (starts : ∀ first ∈ (before ++ [(object, selection.step)]).head?, isAt first.1 place)
    (linked : (before ++ [(object, selection.step)]).IsChain fun first second =>
      ∀ place, isAt first.1 place → isAt second.1 (policy.below place first.2.name))
    (made : ∃ query ∈ queries, query.Shows matched before object selection)
    (single : ∀ query ∈ queries, ∀ other,
      policy.Offered matched place query before object other →
      other.resultKey = selection.resultKey → selection.agrees other = true) :
    (∃ found, merged.Shows matched before object found ∧
      found.resultKey = selection.resultKey) ∧
    ∀ found, merged.Shows matched before object found →
      found.resultKey = selection.resultKey → selection.agrees found = true := by
  constructor
  · obtain ⟨query, given, shows⟩ := made
    have itself := single query given selection (offered_of_shows policy place shows) rfl
    have takes : selection.head.takes selection.step = true :=
      Head.takes_iff.mpr ⟨rfl, rfl, (Head.agrees_iff.mp (Selection.agrees_iff.mp itself).2).2⟩
    have selects := selectsFor_merge joins done given (shows.selectsFor takes)
    obtain ⟨found, showsFound, takesFound⟩ := selects.exists_shows
    exact ⟨found, showsFound, (Head.takes_iff.mp takesFound).1⟩
  · intro found shows key
    obtain ⟨query, given, other, offered, keyOther, means⟩ :=
      exists_offered_of_shows joins conforms keyed done shows starts linked
    rw [← means]
    exact single query given other offered (keyOther.trans key)

end Joining

end MergePolicy

end GraphQuery
