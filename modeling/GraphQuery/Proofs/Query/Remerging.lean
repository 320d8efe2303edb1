import GraphQuery.Proofs.Query.Equal
import GraphQuery.Proofs.Query.Merged

/-!
Merging once more what was merged. A query comes back as it is when no fragment in it still holds a
selection that is to be hoisted out of it, and only then.
-/

namespace GraphQuery

namespace MergePolicy

section Levels

variable {κ ε : Type} {policy : MergePolicy κ ε} {place : κ} {query inner : Query}
  {typeName : String}

/-- On no level does a fragment hold a selection that is to be taken out of it. -/
inductive Hoisted (policy : MergePolicy κ ε) : κ → Query → Prop
  | mk {place : κ} {query : Query} :
      (∀ typeName inner, .mk (some typeName) inner ∈ query.fragments →
        policy.taken place typeName inner = []) →
      (∀ typeName inner, .mk (some typeName) inner ∈ query.fragments →
        Hoisted policy (policy.inside place typeName) inner) →
      (∀ head inner, .link head inner ∈ query.selections →
        Hoisted policy (policy.below place head.name) inner) → Hoisted policy place query

namespace Hoisted

variable (hoisted : policy.Hoisted place query)

include hoisted

theorem taken_eq : ∀ typeName inner, .mk (some typeName) inner ∈ query.fragments →
    policy.taken place typeName inner = [] := by
  cases hoisted
  assumption

theorem ofFragment (member : .mk (some typeName) inner ∈ query.fragments) :
    policy.Hoisted (policy.inside place typeName) inner := by
  cases hoisted with
  | mk _ inside _ => exact inside _ _ member

theorem ofLink {head : Head} (member : .link head inner ∈ query.selections) :
    policy.Hoisted (policy.below place head.name) inner := by
  cases hoisted with
  | mk _ _ below => exact below _ _ member

end Hoisted

theorem hoisted_of_untaken (nothing : ∀ place typeName query, policy.taken place typeName query = [])
    (place : κ) (query : Query) : policy.Hoisted place query := by
  induction query using Query.induct generalizing place with
  | step query ofLink ofFragment =>
      refine .mk (fun typeName inner _ => nothing place typeName inner) ?_ ?_
      · exact fun typeName inner member => ofFragment _ member _
      · exact fun head inner member => ofLink head inner member _

end Levels

section Joining

variable {κ : Type} {policy : MergePolicy κ MergeError} {place : κ} {queries : List Query}
  {query merged : Query}

section Itself

variable (level : policy.MergedLevel place query)
  (nothing : ∀ typeName inner, .mk (some typeName) inner ∈ query.fragments →
    policy.taken place typeName inner = [])
  (below : ∀ head inner, .link head inner ∈ query.selections →
    policy.merge (policy.below place head.name) [inner] = .ok inner)
  (inside : ∀ typeName inner, .mk (some typeName) inner ∈ query.fragments →
    policy.merge (policy.inside place typeName) [inner] = .ok inner)

include level nothing

include below in
theorem Merges.selections_self (merges : policy.Merges place [query] merged) :
    merged.selections = query.selections := by
  have finishes := merges.selections
  rw [level.selectionsAt_eq nothing, Slot.keys_gather, eraseDups_of_nodup level.keys,
    List.forall₂_map_left_iff] at finishes
  have itself := (List.forall₂_and_left _ _).mpr ⟨fun selection member => member, finishes⟩
  have same : List.Forall₂ Eq query.selections merged.selections := by
    refine itself.imp ?_
    rintro selection finished ⟨member, finishes⟩
    rw [Selection.under_of_nodup level.keys member] at finishes
    cases finishes with
    | field head rest => rfl
    | link done =>
        obtain rfl := Except.ok.inj ((below _ _ member).symm.trans done)
        rfl
  rw [List.forall₂_eq_eq_eq] at same
  exact same.symm

include inside in
theorem Merges.fragments_self (merges : policy.Merges place [query] merged) :
    merged.fragments = query.fragments := by
  obtain ⟨fragments, aligned, kept⟩ := merges.fragments
  have named : List.Forall₂ (fun typeName? fragment => ∀ typeName ∈ typeName?,
      policy.FinishesGroup place (policy.partsAt place [query]) typeName fragment)
      (query.fragments.map Fragment.typeName?) fragments := by
    rw [← level.keys_groups, List.forall₂_map_left_iff]
    refine aligned.imp fun typeName fragment finishes other same => ?_
    obtain rfl := Option.some.inj same
    exact finishes
  rw [List.forall₂_map_left_iff] at named
  have itself := (List.forall₂_and_left _ _).mpr ⟨fun fragment member => member, named⟩
  have same : List.Forall₂ Eq query.fragments fragments := by
    refine itself.imp ?_
    rintro fragment finished ⟨member, finishes⟩
    obtain ⟨typeName, inner, rfl⟩ := level.exists_typeName member
    cases finishes typeName rfl with
    | mk done =>
        rw [level.queriesOn_eq member, remaining_eq_self (nothing _ _ member),
          inside _ _ member] at done
        obtain rfl := Except.ok.inj done
        rfl
  rw [List.forall₂_eq_eq_eq] at same
  rw [kept, ← same, List.filter_eq_self]
  intro fragment member
  obtain ⟨typeName, inner, rfl⟩ := level.exists_typeName member
  rw [Fragment.query, level.filled _ _ member]
  rfl

include below inside in
theorem not_fails_self (error : MergeError) : ¬ policy.Fails place [query] error := by
  have own := level.selectionsAt_eq nothing
  intro fails
  cases fails with
  | clash clashing =>
      rw [own] at clashing
      exact clashing.not_agreeing (Selection.agreeing_of_nodup level.keys)
  | below split failed =>
      rw [own] at split
      have under := Selection.mem_under_iff.mp (split ▸ List.mem_cons_self)
      rw [← under.2, Selection.under_of_nodup level.keys under.1] at split
      cases split
      cases (below _ _ under.1).symm.trans failed
  | @inside typeName _ failed =>
      by_cases known : Part.queriesOn typeName (policy.partsAt place [query]) = []
      · rw [known, merge_nil] at failed
        cases failed
      · obtain ⟨inner, member⟩ := level.exists_of_queriesOn known
        rw [level.queriesOn_eq member, remaining_eq_self (nothing _ _ member)] at failed
        cases (inside _ _ member).symm.trans failed

end Itself

/-- A merged query from which nothing is to be hoisted merges to itself. -/
theorem merge_of_hoisted (joins : policy.combine = Slot.join)
    (shape : policy.Merged place query) (hoisted : policy.Hoisted place query) :
    policy.merge place [query] = .ok query := by
  induction query using Query.induct generalizing place with
  | step query ofLink ofFragment =>
      have below : ∀ head inner, .link head inner ∈ query.selections →
          policy.merge (policy.below place head.name) [inner] = .ok inner :=
        fun head inner member =>
          ofLink head inner member (shape.ofLink member) (hoisted.ofLink member)
      have inside : ∀ typeName inner, .mk (some typeName) inner ∈ query.fragments →
          policy.merge (policy.inside place typeName) [inner] = .ok inner :=
        fun typeName inner member =>
          ofFragment _ member (shape.ofFragment member) (hoisted.ofFragment member)
      have nothing := hoisted.taken_eq
      cases done : policy.merge place [query] with
      | error error =>
          have fails := fails_of_merge joins done
          exact (not_fails_self shape.level nothing below inside error fails).elim
      | ok merged =>
          have merges := merges_of_merge joins done
          have selections := merges.selections_self shape.level nothing below
          have fragments := merges.fragments_self shape.level nothing inside
          have ordered : merged.ordered = query.ordered := by
            rw [merges.ordered, List.any_cons, List.any_nil, Bool.or_false]
          obtain ⟨_, _, _⟩ := merged
          obtain ⟨_, _, _⟩ := query
          obtain rfl := selections
          obtain rfl := fragments
          obtain rfl := ordered
          rfl

end Joining

/-! Equal queries have the same keys and names on every level -/

def SameLabel (head other : Head) : Prop :=
  head.resultKey = other.resultKey ∧ head.name = other.name

section Equal

variable {κ ε : Type} {policy : MergePolicy κ ε} {place : κ} {query other : Query}

theorem paired_selections_of_beq (merged : policy.Merged place query)
    (mergedToo : policy.Merged place other) (comparable : query.isComparable = true)
    (equal : (query == other) = true) : Paired
      (fun selection found => Selection.sameBy (· == ·) found selection = true) query.selections
      other.selections := by
  refine paired_of_sameItems Selection.resultKey merged.level.keys mergedToo.level.keys ?_ ?_
    (Query.beq_iff.mp equal).2.1
  · exact fun selection _ found _ same => (Selection.sameLabel_of_sameBy same).1
  · intro selection member
    obtain ⟨selections, fragments, ordered⟩ := query
    exact Selection.sameBy_self ((Query.every_mk_iff.mp comparable).1 selection member)

theorem paired_fragments_of_beq (merged : policy.Merged place query)
    (mergedToo : policy.Merged place other) (equal : (query == other) = true) : Paired
      (fun fragment found => Fragment.sameBy (· == ·) found fragment = true) query.fragments
      other.fragments := by
  refine paired_of_sameItems Fragment.typeName? merged.level.typeNames mergedToo.level.typeNames
    ?_ ?_ (Query.beq_iff.mp equal).2.2
  · intro fragment _ found _ same
    rw [Fragment.sameBy, Bool.and_eq_true, beq_iff_eq] at same
    exact same.1
  · intro fragment _
    rw [Fragment.sameBy, Query.beq_self, beq_self_eq_true, Bool.and_true]

theorem Merged.like_of_beq (merged : policy.Merged place query)
    (mergedToo : policy.Merged place other) (comparable : query.isComparable = true)
    (comparableToo : other.isComparable = true) (equal : (query == other) = true) :
    Query.Like SameLabel query other := by
  -- equality is asked the other way round on the next level, so the bound is on both heights
  induction bound : max query.height other.height using Nat.strongRecOn
    generalizing place query other with
  | ind bound ih =>
      subst bound
      have selections := paired_selections_of_beq merged mergedToo comparable equal
      have fragments := paired_fragments_of_beq merged mergedToo equal
      have ordered := (Query.beq_iff.mp equal).1
      have back : ∀ head other, SameLabel head other → SameLabel other head :=
        fun _ _ same => ⟨same.1.symm, same.2.symm⟩
      obtain ⟨_, _, _⟩ := query
      obtain ⟨_, _, _⟩ := other
      obtain rfl := ordered
      rw [Query.isComparable, Query.every_mk_iff] at comparable comparableToo
      refine .mk (selections.members.imp ?_) (fragments.members.imp ?_)
      · rintro selection found ⟨member, memberToo, same⟩
        have label := Selection.sameLabel_of_sameBy same
        cases selection with
        | field head =>
            cases found with
            | field headToo => exact .field (back _ _ label)
            | link headToo innerToo => cases same
        | link head inner =>
            cases found with
            | field headToo => cases same
            | link headToo innerToo =>
                have lower := Query.height_lt_of_link member
                have lowerToo := Query.height_lt_of_link memberToo
                rw [Selection.sameBy, Bool.and_eq_true] at same
                have sameName : headToo.name = head.name := label.2
                have shape := merged.ofLink member
                rw [← sameName] at shape
                have alike := ih _ (by omega) (mergedToo.ofLink memberToo) shape
                  (Selection.every_link_iff.mp (comparableToo.1 _ memberToo)).2
                  (Selection.every_link_iff.mp (comparable.1 _ member)).2 same.2 rfl
                exact .link (back _ _ label) (alike.symm back)
      · rintro fragment found ⟨member, memberToo, same⟩
        obtain ⟨typeName, inner, rfl⟩ := merged.level.exists_typeName member
        obtain ⟨typeNameToo, innerToo, rfl⟩ := mergedToo.level.exists_typeName memberToo
        have lower : inner.height < _ := Query.height_lt_of_fragment member
        have lowerToo : innerToo.height < _ := Query.height_lt_of_fragment memberToo
        have passes : inner.isComparable = true := comparable.2 _ member
        have passesToo : innerToo.isComparable = true := comparableToo.2 _ memberToo
        rw [Fragment.sameBy, Bool.and_eq_true, beq_iff_eq] at same
        obtain rfl := Option.some.inj same.1
        have alike := ih _ (by omega) (mergedToo.ofFragment memberToo) (merged.ofFragment member)
          passesToo passes same.2 rfl
        exact .mk (alike.symm back)

end Equal

section Again

variable {κ : Type} {policy : MergePolicy κ MergeError} {place : κ} {query inner again : Query}
  {typeName : String}

theorem MergedLevel.exists_inside (level : policy.MergedLevel place query)
    (joins : policy.combine = Slot.join) (done : policy.merge place [query] = .ok again)
    (alike : Paired (Fragment.Like (Query.Like SameLabel)) again.fragments query.fragments)
    (member : .mk (some typeName) inner ∈ query.fragments) : ∃ innerAgain,
      policy.merge (policy.inside place typeName) [policy.remaining place typeName inner] =
        .ok innerAgain ∧ Query.Like SameLabel innerAgain inner := by
  obtain ⟨fragment, memberToo, like⟩ := alike.exists_left member
  cases like with
  | @mk _ innerAgain _ alike =>
      obtain ⟨name, _, finishes⟩ := (merges_of_merge joins done).of_fragment memberToo
      cases finishes with
      | mk doneInner => exact ⟨innerAgain, level.queriesOn_eq member ▸ doneInner, alike⟩

/-- What would be taken out of a merged query is not in what is left of it, so it would have to come
back from a fragment within, out of which nothing is taken either. -/
theorem Merged.nothing_shared (merged : policy.Merged place query)
    (joins : policy.combine = Slot.join) {shared : List String}
    (done : policy.merge place [specific shared query] = .ok again)
    (alike : Query.Like SameLabel again query) :
    ∀ selection ∈ query.selections, shared.contains selection.name = false := by
  induction query using Query.inductFragments generalizing place shared again with
  | step query ih =>
      intro selection member
      have merges := merges_of_merge joins done
      have level := merged.level.specific shared
      by_contra held
      rw [Bool.not_eq_false] at held
      obtain ⟨finished, memberToo, labelled⟩ := alike.selections.exists_left member
      obtain ⟨first, rest, own, _, _, head, _⟩ := merges.exists_first memberToo
      have name : first.name = selection.name := by
        have same := labelled.head.2
        rw [head, Head.name_joinedTo] at same
        exact same
      rw [partsAt_single, level.mem_parts_iff] at own
      rcases own with ⟨_, left, same⟩ | ⟨typeName, inner, given, ⟨_, taken, same⟩ | same⟩
      · cases same
        have apart := (List.mem_filter.mp left).2
        rw [name, held] at apart
        cases apart
      · cases same
        obtain ⟨innerAgain, doneInner, alikeInner⟩ :=
          level.exists_inside joins done alike.fragments given
        obtain ⟨sharedToo, treated, inside, hoisted⟩ := mem_taken_iff.mp taken
        simp only [remaining, treated] at doneInner
        have nothing := ih _ given (merged.ofFragment given) doneInner alikeInner first inside
        rw [nothing] at hoisted
        cases hoisted
      · cases same

theorem Merged.taken_eq_nil (merged : policy.Merged place inner)
    (joins : policy.combine = Slot.join) {outer : κ}
    (done : policy.merge place [policy.remaining outer typeName inner] = .ok again)
    (alike : Query.Like SameLabel again inner) : policy.taken outer typeName inner = [] := by
  refine List.eq_nil_iff_forall_not_mem.mpr fun selection member => ?_
  obtain ⟨shared, treated, inside, hoisted⟩ := mem_taken_iff.mp member
  simp only [remaining, treated] at done
  have nothing := merged.nothing_shared joins done alike selection inside
  rw [nothing] at hoisted
  cases hoisted

/-- Only a query from which nothing is to be hoisted merges to one with the same labels. -/
theorem Merged.hoisted_of_like (merged : policy.Merged place query)
    (joins : policy.combine = Slot.join) (done : policy.merge place [query] = .ok again)
    (alike : Query.Like SameLabel again query) : policy.Hoisted place query := by
  induction query using Query.induct generalizing place again with
  | step query ofLink ofFragment =>
      have merges := merges_of_merge joins done
      have inside : ∀ typeName inner, .mk (some typeName) inner ∈ query.fragments →
          policy.taken place typeName inner = [] ∧
            policy.Hoisted (policy.inside place typeName) inner := by
        intro typeName inner member
        obtain ⟨innerAgain, doneInner, alikeInner⟩ :=
          merged.level.exists_inside joins done alike.fragments member
        have shape := merged.ofFragment member
        have nothing := shape.taken_eq_nil joins doneInner alikeInner
        rw [remaining_eq_self nothing] at doneInner
        exact ⟨nothing, ofFragment _ member shape doneInner alikeInner⟩
      refine .mk (fun _ _ member => (inside _ _ member).1) (fun _ _ member => (inside _ _ member).2)
        fun head inner member => ?_
      obtain ⟨finished, memberToo, like⟩ := alike.selections.exists_left member
      cases like with
      | @link headToo _ innerAgain _ label alikeInner =>
          have doneInner := (merges.finishes memberToo).inner
          have sameKey : (Selection.link headToo innerAgain).resultKey =
              (Selection.link head inner).resultKey := label.1
          rw [merged.level.selectionsAt_eq fun _ _ member => (inside _ _ member).1, sameKey,
            Selection.under_of_nodup merged.level.keys member, label.2] at doneInner
          exact ofLink head inner member (merged.ofLink member) doneInner alikeInner

end Again

end MergePolicy

end GraphQuery
