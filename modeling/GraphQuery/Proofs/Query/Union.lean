import GraphQuery.Proofs.Query.Equal
import GraphQuery.Proofs.Query.MergeRequirements

/-!
Merged requirements are a union: they hold the paths of labels that any of them holds. A query made
of labels alone, each selected once on its level, is determined by its paths, so that neither the
order of requirements nor their grouping nor their repetition matters.
-/

namespace GraphQuery

namespace Query

def Has (query : Query) (path : List String) : Prop :=
  ∃ link, query.Selects link path

structure SamePaths (query other : Query) : Prop where
  has : ∀ path, query.Has path ↔ other.Has path
  links : ∀ path, query.Selects true path ↔ other.Selects true path

variable {query other : Query} {head headToo : Head} {inner innerToo : Query} {link : Bool}
  {path : List String} {selection found : Selection}

theorem SamePaths.symm (paths : SamePaths query other) : SamePaths other query :=
  ⟨fun path => (paths.has path).symm, fun path => (paths.links path).symm⟩

theorem has_single_iff {name : String} :
    query.Has [name] ↔ ∃ selection ∈ query.selections, selection.name = name := by
  constructor
  · rintro ⟨link, selects⟩
    obtain ⟨selection, member, _, same⟩ := selects_single_iff.mp selects
    exact ⟨selection, member, same⟩
  · rintro ⟨selection, member, same⟩
    exact ⟨selection.isLink, selects_single_iff.mpr ⟨selection, member, rfl, same⟩⟩

theorem Has.single {name : String} (member : .field (.named name) ∈ query.selections) :
    query.Has [name] :=
  has_single_iff.mpr ⟨_, member, rfl⟩

theorem Has.under {name : String} {inner : Query}
    (member : .link (.named name) inner ∈ query.selections) (has : inner.Has path) :
    query.Has (name :: path) :=
  has.imp fun _ => .under member

namespace Distinct

theorem selects_below_iff (distinct : Distinct query) (member : .link head inner ∈ query.selections)
    (more : path ≠ []) : query.Selects link (head.name :: path) ↔ inner.Selects link path := by
  rw [selects_cons_iff more]
  constructor
  · rintro ⟨other, found, memberToo, same, selects⟩
    have equal := distinct.eq_of_name memberToo member same
    simp only [Selection.link.injEq] at equal
    exact equal.2 ▸ selects
  · exact fun selects => ⟨head, inner, member, rfl, selects⟩

theorem selects_here_iff (distinct : Distinct query) (member : selection ∈ query.selections) :
    query.Selects link [selection.name] ↔ selection.isLink = link := by
  rw [selects_single_iff]
  constructor
  · rintro ⟨found, memberToo, kind, same⟩
    exact distinct.eq_of_name memberToo member same ▸ kind
  · exact fun kind => ⟨selection, member, kind, rfl⟩

end Distinct

namespace SamePaths

variable (paths : SamePaths query other) (distinct : Distinct query)
  (distinctToo : Distinct other)

include paths distinctToo

theorem below (distinct : Distinct query) (member : .link head inner ∈ query.selections)
    (memberToo : .link headToo innerToo ∈ other.selections) (same : head.name = headToo.name) :
    SamePaths inner innerToo := by
  have each : ∀ {path : List String}, path ≠ [] → ∀ link,
      (query.Selects link (head.name :: path) ↔ inner.Selects link path) ∧
        (other.Selects link (head.name :: path) ↔ innerToo.Selects link path) := by
    intro path more link
    have there : other.Selects link (headToo.name :: path) ↔ innerToo.Selects link path :=
      distinctToo.selects_below_iff memberToo more
    exact ⟨distinct.selects_below_iff member more, same ▸ there⟩
  constructor
  · intro path
    by_cases more : path = []
    · subst more
      exact ⟨fun ⟨_, selects⟩ => (not_selects_nil selects).elim,
        fun ⟨_, selects⟩ => (not_selects_nil selects).elim⟩
    · have whole := paths.has (head.name :: path)
      simp only [Has, each more] at whole
      exact whole
  · intro path
    by_cases more : path = []
    · subst more
      exact iff_of_false not_selects_nil not_selects_nil
    · have whole := paths.links (head.name :: path)
      rwa [(each more true).1, (each more true).2] at whole

theorem isLink_eq (distinct : Distinct query) (member : selection ∈ query.selections)
    (memberToo : found ∈ other.selections) (same : selection.name = found.name) :
    selection.isLink = found.isLink := by
  have whole := paths.links [selection.name]
  rw [distinct.selects_here_iff member, same, distinctToo.selects_here_iff memberToo] at whole
  exact Bool.eq_iff_iff.mpr whole

theorem names_perm (distinct : Distinct query) :
    (query.selections.map Selection.name).Perm (other.selections.map Selection.name) := by
  cases distinct with
  | mk nodup _ =>
      cases distinctToo with
      | mk nodupToo _ =>
          refine (List.perm_ext_iff_of_nodup nodup nodupToo).mpr fun name => ?_
          have whole := paths.has [name]
          rw [has_single_iff, has_single_iff] at whole
          simpa only [List.mem_map] using whole

end SamePaths

theorem head_beq_iff (named : head = .named head.name) (namedToo : headToo = .named headToo.name) :
    (head == headToo) = true ↔ head.name = headToo.name := by
  rw [named, namedToo]
  change (_ && _ && _ && _) = true ↔ _
  simp [Head.named, sameOptions, sameItems]

theorem sameBy_iff (named : selection.head = .named selection.name)
    (namedToo : found.head = .named found.name)
    (kind : selection.name = found.name → selection.isLink = found.isLink)
    (below : ∀ head inner headToo innerToo, selection = .link head inner →
      found = .link headToo innerToo → head.name = headToo.name → (innerToo == inner) = true) :
    Selection.sameBy (· == ·) found selection = true ↔ found.name = selection.name := by
  cases selection with
  | field head =>
      cases found with
      | field headToo => exact head_beq_iff namedToo named
      | link headToo innerToo =>
          exact iff_of_false Bool.false_ne_true fun same => Bool.false_ne_true (kind same.symm)
  | link head inner =>
      cases found with
      | field headToo =>
          exact iff_of_false Bool.false_ne_true fun same => Bool.false_ne_true (kind same.symm).symm
      | link headToo innerToo =>
          have heads : (headToo == head) = true ↔ headToo.name = head.name :=
            head_beq_iff namedToo named
          rw [Selection.sameBy, Bool.and_eq_true, heads]
          exact and_iff_left_of_imp fun same => below _ _ _ _ rfl rfl same.symm

/-- Queries of labels alone, each selected once on its level, are equal when their paths are. -/
theorem SamePaths.beq (paths : SamePaths query other) (plain : Plain query)
    (plainToo : Plain other) (distinct : Distinct query) (distinctToo : Distinct other) :
    (query == other) = true := by
  -- the two queries change places from one level to the next, so the bound is on both heights
  induction bound : max query.height other.height using Nat.strongRecOn
    generalizing query other with
  | ind bound ih =>
      subst bound
      refine beq_iff.mpr ⟨?_, ?_, ?_⟩
      · rw [plain.ordered_eq, plainToo.ordered_eq]
      · refine sameItems_of_keys Selection.name (paths.names_perm distinctToo distinct) ?_
        rintro selection member found (inside | inside)
        · refine sameBy_iff (plain.head_eq member) (plain.head_eq inside) ?_ ?_
          · exact fun same => congrArg Selection.isLink (distinct.eq_of_name member inside same)
          · rintro head inner headToo innerToo rfl rfl same
            have equal := distinct.eq_of_name member inside same
            simp only [Selection.link.injEq] at equal
            exact equal.2 ▸ beq_self inner
        · refine sameBy_iff (plain.head_eq member) (plainToo.head_eq inside) ?_ ?_
          · exact paths.isLink_eq distinctToo distinct member inside
          · rintro head inner headToo innerToo rfl rfl same
            have lower := height_lt_of_link member
            have lowerToo := height_lt_of_link inside
            have pathsBelow := (paths.below distinctToo distinct member inside same).symm
            exact ih _ (by omega) pathsBelow (plainToo.inner inside) (plain.inner member)
              (distinctToo.inner inside) (distinct.inner member) rfl
      · rw [plain.fragments_eq, plainToo.fragments_eq]
        exact sameItems_self

end Query

namespace Requirement

variable {queries others : List Query} {merged mergedToo : Query} {path : List String}

theorem Merges.has_iff (merges : Merges queries merged) :
    merged.Has path ↔ ∃ query ∈ queries, query.Has path := by
  constructor
  · rintro ⟨link, selects⟩
    cases link with
    | true =>
        obtain ⟨query, member, selects⟩ := (merges.links path).mp selects
        exact ⟨query, member, true, selects⟩
    | false =>
        obtain ⟨query, member, selects⟩ := ((merges.fields path).mp selects).1
        exact ⟨query, member, false, selects⟩
  · rintro ⟨query, member, link, selects⟩
    exact (merges.selects member selects).elim (fun linked => ⟨true, linked⟩) fun as => ⟨link, as⟩

theorem Merges.beq (merges : Merges queries merged) (mergesToo : Merges others mergedToo)
    (paths : merged.SamePaths mergedToo) : (merged == mergedToo) = true :=
  paths.beq merges.plain mergesToo.plain merges.distinct mergesToo.distinct

end Requirement

namespace Query

variable {queries others : List Query}

/-- Neither the order of requirements matters nor how often one of them is given. -/
theorem mergeRequirements_beq_of_members (plain : ∀ query ∈ queries, query.Plain)
    (members : ∀ query, query ∈ others ↔ query ∈ queries) :
    (mergeRequirements queries == mergeRequirements others) = true := by
  have merges := Requirement.mergeRequirements_merges plain
  have mergesToo := Requirement.mergeRequirements_merges
    fun query member => plain query ((members query).mp member)
  refine merges.beq mergesToo ⟨fun path => ?_, fun path => ?_⟩
  · simp only [merges.has_iff, mergesToo.has_iff, members]
  · simp only [merges.links, mergesToo.links, members]

/-- Some requirements may be merged in groups before they are merged with the others. -/
theorem mergeRequirements_beq_of_groups {groups : List (List Query)}
    (plain : ∀ query ∈ groups.flatten ++ others, query.Plain) :
    (mergeRequirements (groups.map mergeRequirements ++ others) ==
      mergeRequirements (groups.flatten ++ others)) = true := by
  have merged : ∀ group ∈ groups, Requirement.Merges group (mergeRequirements group) := by
    intro group member
    refine Requirement.mergeRequirements_merges fun query inside => ?_
    exact plain query (List.mem_append_left _ (List.mem_flatten_of_mem member inside))
  have plainToo : ∀ query ∈ groups.map mergeRequirements ++ others, query.Plain := by
    intro query member
    rcases List.mem_append.mp member with member | member
    · obtain ⟨group, inside, rfl⟩ := List.mem_map.mp member
      exact (merged group inside).plain
    · exact plain query (List.mem_append_right _ member)
  have exchange : ∀ {holds : Query → Prop},
      (∀ group ∈ groups, holds (mergeRequirements group) ↔ ∃ query ∈ group, holds query) →
        ((∃ query ∈ groups.map mergeRequirements ++ others, holds query) ↔
          ∃ query ∈ groups.flatten ++ others, holds query) := by
    intro holds each
    simp only [List.mem_append, List.mem_map, List.mem_flatten, or_and_right, exists_or]
    refine or_congr_left ⟨?_, ?_⟩
    · rintro ⟨_, ⟨group, member, rfl⟩, held⟩
      obtain ⟨query, inside, heldToo⟩ := (each group member).mp held
      exact ⟨query, ⟨group, member, inside⟩, heldToo⟩
    · rintro ⟨query, ⟨group, member, inside⟩, held⟩
      exact ⟨_, ⟨group, member, rfl⟩, (each group member).mpr ⟨query, inside, held⟩⟩
  have merges := Requirement.mergeRequirements_merges plainToo
  have mergesToo := Requirement.mergeRequirements_merges plain
  refine merges.beq mergesToo ⟨fun path => ?_, fun path => ?_⟩
  · rw [merges.has_iff, mergesToo.has_iff]
    exact exchange fun group member => (merged group member).has_iff
  · rw [merges.links, mergesToo.links]
    exact exchange fun group member => (merged group member).links path

/-- Merging requirements is a union of paths: a label is selected once on each level, a path is
present when one of them holds it, and a link when one of them has it as a link. So it is
commutative, associative and idempotent. -/
theorem mergeRequirements_union (plain : ∀ query ∈ queries, query.Plain) :
    (mergeRequirements queries).Plain ∧ (mergeRequirements queries).Distinct ∧
      (∀ path, (mergeRequirements queries).Has path ↔ ∃ query ∈ queries, query.Has path) ∧
      (∀ path, (mergeRequirements queries).Selects true path ↔
        ∃ query ∈ queries, query.Selects true path) ∧
      (∀ others, queries.Perm others →
        (mergeRequirements queries == mergeRequirements others) = true) ∧
      (∀ (groups : List (List Query)) (others : List Query), queries = groups.flatten ++ others →
        (mergeRequirements (groups.map mergeRequirements ++ others) ==
          mergeRequirements queries) = true) ∧
      (mergeRequirements (queries ++ queries) == mergeRequirements queries) = true ∧
      (mergeRequirements [mergeRequirements queries] == mergeRequirements queries) = true := by
  have merges := Requirement.mergeRequirements_merges plain
  have grouped : ∀ (groups : List (List Query)) (others : List Query),
      queries = groups.flatten ++ others →
      (mergeRequirements (groups.map mergeRequirements ++ others) ==
        mergeRequirements queries) = true := by
    rintro groups others rfl
    exact mergeRequirements_beq_of_groups plain
  refine ⟨merges.plain, merges.distinct, fun _ => merges.has_iff, merges.links, ?_, grouped, ?_, ?_⟩
  · intro others order
    exact mergeRequirements_beq_of_members plain fun _ => order.mem_iff.symm
  · have plainTwice : ∀ query ∈ queries ++ queries, query.Plain :=
      fun query member => plain query ((List.mem_append.mp member).elim id id)
    exact mergeRequirements_beq_of_members plainTwice fun query => by simp
  · exact grouped [queries] [] (by simp)

def artists : List Query :=
  [.ofSelections [.field (.named "artist")],
    .ofSelections [.link (.named "artist") (.ofSelections [.field (.named "name")])],
    .ofSelections [.field (.named "artist"),
      .link (.named "artist") (.ofSelections [.field (.named "name"), .field (.named "alias")])]]

theorem mergeRequirements_union_artists : (∀ query ∈ artists, query.Plain) ∧
    (mergeRequirements artists).Distinct ∧
    (mergeRequirements (artists ++ artists) == mergeRequirements artists) = true := by
  have plain : ∀ query ∈ artists, query.Plain := by
    have fields : ∀ names : List String,
        (ofSelections (names.map fun name => .field (.named name))).Plain := by
      intro names
      refine .mk ?_ ?_ <;> simp [Selection.name, Selection.head, Head.named]
    have name : (ofSelections [.field (.named "name")]).Plain := fields ["name"]
    have names : (ofSelections [.field (.named "name"), .field (.named "alias")]).Plain :=
      fields ["name", "alias"]
    intro query member
    simp only [artists, List.mem_cons, List.not_mem_nil, or_false] at member
    rcases member with rfl | rfl | rfl
    · exact fields ["artist"]
    · refine .mk ?_ ?_
      · simp [Selection.name, Selection.head, Head.named]
      · simpa using name
    · refine .mk ?_ ?_
      · simp [Selection.name, Selection.head, Head.named]
      · simpa using names
  have union := mergeRequirements_union plain
  exact ⟨plain, union.2.1, union.2.2.2.2.2.2.1⟩

end Query

end GraphQuery
