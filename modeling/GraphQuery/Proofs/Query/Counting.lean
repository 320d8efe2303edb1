import GraphQuery.Proofs.Query.Equal

/-!
Lists that are compared by counting, when the items are compared by a relation that is symmetric and
transitive but need not be reflexive. Only the items of the first list that are equal to themselves
are counted. They have different partners in the second list, and nothing is asked of its others.
-/

namespace GraphQuery

structure PartialEquivalence {α : Type} (among : α → Prop) (same : α → α → Bool) : Prop where
  symm {item other : α} : among item → among other → same item other = true →
    same other item = true
  trans {first second third : α} : among first → among second → among third →
    same first second = true → same second third = true → same first third = true

def selfEqual {α : Type} (same : α → α → Bool) (items : List α) : List α :=
  items.filter fun item => same item item

section Lists

variable {α : Type} {same : α → α → Bool} {items others : List α}

theorem mem_selfEqual_iff {item : α} :
    item ∈ selfEqual same items ↔ item ∈ items ∧ same item item = true :=
  List.mem_filter

theorem forall_mem_selfEqual {among : α → Prop} (known : ∀ item ∈ items, among item) :
    ∀ item ∈ selfEqual same items, among item :=
  fun item member => known item (mem_selfEqual_iff.mp member).1

theorem countP_selfEqual {item : α}
    (firm : ∀ found ∈ items, same found item = true → same found found = true) :
    (selfEqual same items).countP (fun found => same found item) =
      items.countP fun found => same found item := by
  rw [selfEqual, List.countP_filter]
  refine List.countP_congr fun found inside => ?_
  rw [Bool.and_eq_true, and_iff_left_iff_imp]
  exact firm found inside

theorem selfEqual_eq_self (itself : ∀ item ∈ items, same item item = true) :
    selfEqual same items = items :=
  List.filter_eq_self.mpr itself

end Lists

namespace PartialEquivalence

variable {α : Type} {among : α → Prop} {same : α → α → Bool} {items others : List α}
  (equality : PartialEquivalence among same)

include equality

theorem self_of_same {item other : α} (known : among item) (knownToo : among other)
    (alike : same item other = true) : same item item = true :=
  equality.trans known knownToo known alike (equality.symm known knownToo alike)

theorem same_congr {item other third : α} (known : among item) (knownToo : among other)
    (knownThird : among third) (alike : same item other = true) :
    same item third = same other third := by
  rw [Bool.eq_iff_iff]
  constructor
  · exact equality.trans knownToo known knownThird (equality.symm known knownToo alike)
  · exact equality.trans known knownToo knownThird alike

section Counting

variable (known : ∀ item ∈ items, among item) (knownToo : ∀ other ∈ others, among other)

include known

theorem countP_selfEqual {item : α} (knownItem : among item) :
    (selfEqual same items).countP (fun found => same found item) =
      items.countP fun found => same found item :=
  GraphQuery.countP_selfEqual fun found inside =>
    equality.self_of_same (known found inside) knownItem

include knownToo

theorem countP_eq_of_paired
    (paired : Paired (fun item other => same item other = true) items others) {item : α}
    (knownItem : among item) : items.countP (fun found => same found item) =
      others.countP fun found => same found item :=
  paired.members.countP_eq fun found other held =>
    equality.same_congr (known found held.1) (knownToo other held.2.1) knownItem held.2.2

/-- Items that are equal to themselves, and of which no more are equal to any one of them than there
are among others, have different partners there. -/
theorem exists_matched (itself : ∀ item ∈ items, same item item = true)
    (counts : ∀ item ∈ items, items.countP (fun found => same found item) ≤
      others.countP fun found => same found item) :
    ∃ matched left, others.Perm (matched ++ left) ∧
      Paired (fun item other => same item other = true) items matched := by
  induction items generalizing others with
  | nil => exact ⟨[], others, .refl _, .nil⟩
  | cons item rest ih =>
      rw [List.forall_mem_cons] at known itself
      have positive : 0 < (item :: rest).countP fun found => same found item :=
        List.countP_pos_iff.mpr ⟨item, List.mem_cons_self, itself.1⟩
      obtain ⟨found, inside, alike⟩ := List.countP_pos_iff.mp
        (Nat.lt_of_lt_of_le positive (counts item List.mem_cons_self))
      have knownFound := knownToo found inside
      have partner := equality.symm knownFound known.1 alike
      obtain ⟨before, after, rfl⟩ := List.append_of_mem inside
      have moved : (before ++ found :: after).Perm (found :: (before ++ after)) := List.perm_middle
      have fewer : ∀ other ∈ rest, rest.countP (fun found => same found other) ≤
          (before ++ after).countP fun found => same found other := by
        intro other member
        have both := counts other (List.mem_cons_of_mem _ member)
        -- the item and its partner are equal to the same items, so both can be left out
        rw [moved.countP_eq, List.countP_cons, List.countP_cons,
          equality.same_congr known.1 knownFound (known.2 other member) partner] at both
        exact Nat.le_of_add_le_add_right both
      obtain ⟨matched, left, order, paired⟩ := ih known.2
        (fun other member => knownToo other (moved.symm.subset (List.mem_cons_of_mem _ member)))
        itself.2 fewer
      exact ⟨found :: matched, left, moved.trans (order.cons found), .cons partner paired⟩

theorem exists_matched_of_sameItems (equal : sameItems same items others = true) :
    ∃ matched left, (selfEqual same others).Perm (matched ++ left) ∧
      Paired (fun item other => same item other = true) (selfEqual same items) matched := by
  refine equality.exists_matched (forall_mem_selfEqual known) (forall_mem_selfEqual knownToo)
    (fun item member => (mem_selfEqual_iff.mp member).2) fun item member => Nat.le_of_eq ?_
  have inside := (mem_selfEqual_iff.mp member).1
  rw [equality.countP_selfEqual known (known item inside),
    equality.countP_selfEqual knownToo (known item inside)]
  exact (sameItems_iff.mp equal).2 item inside

theorem sameItems_of_paired (length : items.length = others.length)
    (paired : Paired (fun item other => same item other = true) (selfEqual same items)
      (selfEqual same others)) : sameItems same items others = true := by
  refine sameItems_iff.mpr ⟨length, fun item member => ?_⟩
  rw [← equality.countP_selfEqual known (known item member),
    ← equality.countP_selfEqual knownToo (known item member)]
  exact equality.countP_eq_of_paired (forall_mem_selfEqual known) (forall_mem_selfEqual knownToo)
    paired (known item member)

theorem length_selfEqual_le (equal : sameItems same items others = true) :
    (selfEqual same items).length ≤ (selfEqual same others).length := by
  obtain ⟨matched, left, order, paired⟩ :=
    equality.exists_matched_of_sameItems known knownToo equal
  rw [order.length_eq, List.length_append, paired.length_eq]
  exact Nat.le_add_right _ _

/-- As many items of either list as are equal to themselves can be paired off. -/
theorem paired_of_length_eq (equal : sameItems same items others = true)
    (length : (selfEqual same items).length = (selfEqual same others).length) :
    Paired (fun item other => same item other = true) (selfEqual same items)
      (selfEqual same others) := by
  obtain ⟨matched, left, order, paired⟩ :=
    equality.exists_matched_of_sameItems known knownToo equal
  rw [order.length_eq, List.length_append, paired.length_eq] at length
  -- the lengths leave nothing over
  obtain rfl := List.length_eq_zero_iff.mp (Nat.left_eq_add.mp length)
  rw [List.append_nil] at order
  exact .perm paired order.symm

theorem paired_symm
    (paired : Paired (fun item other => same item other = true) items others) :
    Paired (fun other item => same other item = true) others items :=
  paired.members.symm.imp fun other item held =>
    equality.symm (known item held.1) (knownToo other held.2.1) held.2.2

/-- When one list is like another, this one is like the first if as many items of both are equal to
themselves, and only then. -/
theorem sameItems_back_iff (equal : sameItems same items others = true) :
    sameItems same others items = true ↔
      (selfEqual same items).length = (selfEqual same others).length := by
  constructor
  · intro back
    exact Nat.le_antisymm (equality.length_selfEqual_le known knownToo equal)
      (equality.length_selfEqual_le knownToo known back)
  · intro length
    refine equality.sameItems_of_paired knownToo known (sameItems_iff.mp equal).1.symm ?_
    exact equality.paired_symm (forall_mem_selfEqual known) (forall_mem_selfEqual knownToo)
      (equality.paired_of_length_eq known knownToo equal length)

variable (itself : ∀ item ∈ items, same item item = true)
  (itselfToo : ∀ other ∈ others, same other other = true)

include itself itselfToo

theorem sameItems_iff_paired : sameItems same items others = true ↔
    Paired (fun item other => same item other = true) items others := by
  have all := selfEqual_eq_self itself
  have allToo := selfEqual_eq_self itselfToo
  constructor
  · intro equal
    have paired := equality.paired_of_length_eq known knownToo equal
    rw [all, allToo] at paired
    exact paired (sameItems_iff.mp equal).1
  · intro paired
    refine equality.sameItems_of_paired known knownToo paired.length_eq ?_
    rw [all, allToo]
    exact paired

end Counting

/-- Lists of items that are equal to themselves are compared as the items are. -/
theorem ofLists : PartialEquivalence
    (fun items => ∀ item ∈ items, among item ∧ same item item = true) (sameItems same) where
  symm {items others} known knownToo equal := by
    have each := fun item member => (known item member).1
    have eachToo := fun item member => (knownToo item member).1
    refine (equality.sameItems_back_iff each eachToo equal).mpr ?_
    rw [selfEqual_eq_self fun item member => (known item member).2,
      selfEqual_eq_self fun item member => (knownToo item member).2]
    exact (sameItems_iff.mp equal).1
  trans {items others lasts} known knownToo knownLast equal onward := by
    have each := fun item member => (known item member).1
    have eachToo := fun item member => (knownToo item member).1
    have eachLast := fun item member => (knownLast item member).1
    have itself := fun item member => (known item member).2
    have itselfToo := fun item member => (knownToo item member).2
    have itselfLast := fun item member => (knownLast item member).2
    rw [equality.sameItems_iff_paired each eachToo itself itselfToo] at equal
    rw [equality.sameItems_iff_paired eachToo eachLast itselfToo itselfLast] at onward
    rw [equality.sameItems_iff_paired each eachLast itself itselfLast]
    refine equal.members.trans ?_ onward.members
    intro item between last held heldToo
    exact equality.trans (each item held.1) (eachToo between held.2.1) (eachLast last heldToo.2.1)
      held.2.2 heldToo.2.2

end PartialEquivalence

end GraphQuery
