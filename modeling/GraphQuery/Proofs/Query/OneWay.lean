import GraphQuery.Proofs.Query.Counting
import Mathlib.Data.Set.Finite.List
import Mathlib.Logic.Relation

/-!
Lists that are compared by counting, when the comparison of the items may hold in one direction
only. As long as it leads back to where it came from through items that are alike, so does the
comparison of the lists, and lists that are equal in both directions can be paired off.
-/

namespace GraphQuery

variable {α : Type}

/-- From one item to another by comparisons, among the items that a predicate holds of. -/
def LeadsTo (among : α → Prop) (same : α → α → Bool) : α → α → Prop :=
  Relation.ReflTransGen fun item other => among item ∧ among other ∧ same item other = true

/-- A comparison that may hold in one direction only, and which items it does not tell apart. -/
structure OneWay (among : α → Prop) (same : α → α → Bool) (alike : α → α → Prop) : Prop where
  symm {item other : α} : among item → among other → alike item other → alike other item
  trans {first second third : α} : among first → among second → among third →
    alike first second → alike second third → alike first third
  holds {item other : α} : among item → among other → alike item other → same item other = true
  itself {item : α} : among item → same item item = true → alike item item
  firm {item other : α} : among item → among other → same item other = true →
    same item item = true ∧ same other other = true
  left {item other third : α} : among item → among other → among third → alike item other →
    same item third = same other third
  right {item other third : α} : among item → among other → among third → alike item other →
    same third item = same third other
  back {item other : α} : among item → among other → same item other = true →
    LeadsTo among same other item → alike item other

structure Evened (same : α → α → Bool) (alike : α → α → Prop) (items others : List α) : Prop where
  length : items.length = others.length
  paired : Paired alike (selfEqual same items) (selfEqual same others)

theorem evened_iff_loose {same : α → α → Bool} {alike : α → α → Prop} {loose : α → Bool}
    {items others : List α} (itself : ∀ item ∈ items, same item item = !loose item)
    (itselfToo : ∀ other ∈ others, same other other = !loose other) :
    Evened same alike items others ↔ items.countP loose = others.countP loose ∧
      Paired alike (items.filter fun item => !loose item)
        (others.filter fun other => !loose other) := by
  have firm : selfEqual same items = items.filter fun item => !loose item :=
    List.filter_congr itself
  have firmToo : selfEqual same others = others.filter fun item => !loose item :=
    List.filter_congr itselfToo
  have counted : ∀ list : List α,
      list.length = list.countP loose + (list.filter fun item => !loose item).length := by
    intro list
    rw [← List.countP_eq_length_filter, List.length_eq_countP_add_countP loose]
    simp
  constructor
  · rintro ⟨length, paired⟩
    rw [firm, firmToo] at paired
    rw [counted items, counted others, paired.length_eq] at length
    exact ⟨Nat.add_right_cancel length, paired⟩
  · rintro ⟨equal, paired⟩
    refine ⟨?_, ?_⟩
    · rw [counted items, counted others, paired.length_eq, equal]
    · rw [firm, firmToo]
      exact paired

def sameOption (same : α → α → Bool) : Option α → Option α → Bool
  | none, none => true
  | some item, some other => same item other
  | _, _ => false

def Within (same : α → α → Bool) (pool items others : List α) : Prop :=
  items ⊆ pool ∧ others ⊆ pool ∧ sameItems same items others = true

theorem Within.mono {same : α → α → Bool} {pool poolToo items others : List α}
    (within : Within same pool items others) (wider : pool ⊆ poolToo) :
    Within same poolToo items others :=
  ⟨List.Subset.trans within.1 wider, List.Subset.trans within.2.1 wider, within.2.2⟩

def Below (same : α → α → Bool) (alike : α → α → Prop) (pool : List α)
    (item other : { item : α // item ∈ pool }) : Prop :=
  same item.1 other.1 = true ∧ ¬ alike item.1 other.1

/-- A measure that falls on no step of a circle does not fall along it. -/
theorem le_of_circle {β : Type} {step : β → β → Prop} {measure : β → Nat} {first last : β}
    (rising : ∀ {first second : β}, step first second →
      Relation.ReflTransGen step second first → measure first ≤ measure second)
    (walk : Relation.ReflTransGen step first last)
    (home : Relation.ReflTransGen step last first) : measure first ≤ measure last := by
  induction walk with
  | refl => exact Nat.le_refl _
  | tail before edge ih =>
      exact Nat.le_trans (ih (.head edge home)) (rising edge (home.trans before))

theorem exists_pool {among : α → Prop} {same : α → α → Bool} {base items others : List α}
    (known : ∀ item ∈ base, among item)
    (walk : LeadsTo (fun items => ∀ item ∈ items, among item) (sameItems same) items others) :
    ∃ pool, base ⊆ pool ∧ (∀ item ∈ pool, among item) ∧
      Relation.ReflTransGen (Within same pool) items others := by
  induction walk with
  | refl => exact ⟨base, .refl base, known, .refl⟩
  | @tail middle last _ step ih =>
      obtain ⟨pool, inside, knownPool, walk⟩ := ih
      obtain ⟨knownMiddle, knownLast, equal⟩ := step
      have wider : pool ⊆ pool ++ (middle ++ last) := List.subset_append_left _ _
      refine ⟨pool ++ (middle ++ last), List.Subset.trans inside wider, ?_, .tail
        (Relation.ReflTransGen.mono (fun _ _ within => within.mono wider) _ _ walk) ⟨?_, ?_, equal⟩⟩
      · exact List.forall_mem_append.mpr
          ⟨knownPool, List.forall_mem_append.mpr ⟨knownMiddle, knownLast⟩⟩
      · exact List.subset_append_of_subset_right _ (List.subset_append_left _ _)
      · exact List.subset_append_of_subset_right _ (List.subset_append_right _ _)

structure Closed (among : α → Prop) (alike : α → α → Prop) (check : α → Bool) : Prop where
  closed {item other : α} : among item → among other → alike item other → check item = check other
  itself {item : α} : among item → check item = true → alike item item

theorem Closed.countP_filter {among : α → Prop} {alike : α → α → Prop} [DecidableRel alike]
    {check : α → Bool} {items : List α} (closed : Closed among alike check)
    (known : ∀ item ∈ items, among item) {item : α} (knownItem : among item)
    (checked : check item = true) : (items.filter check).countP (fun found => alike found item) =
      items.countP fun found => alike found item := by
  rw [List.countP_filter]
  refine List.countP_congr fun found inside => ?_
  rw [Bool.and_eq_true, and_iff_left_iff_imp]
  intro held
  rw [closed.closed (known found inside) knownItem (of_decide_eq_true held), checked]

namespace OneWay

variable {among : α → Prop} {same : α → α → Bool} {alike : α → α → Prop}
  {items others lasts : List α} (comparison : OneWay among same alike)

include comparison

theorem countP_right (known : ∀ item ∈ items, among item) {item other : α}
    (knownItem : among item) (knownOther : among other) (held : alike item other) :
    items.countP (fun found => same found item) = items.countP fun found => same found other :=
  List.countP_congr fun found inside => by
    rw [comparison.right knownItem knownOther (known found inside) held]

section Lists

variable (known : ∀ item ∈ items, among item) (knownToo : ∀ other ∈ others, among other)

include known knownToo

theorem evened_symm (evened : Evened same alike items others) : Evened same alike others items where
  length := evened.length.symm
  paired := evened.paired.members.symm.imp fun other item held =>
    comparison.symm (forall_mem_selfEqual known item held.1)
      (forall_mem_selfEqual knownToo other held.2.1) held.2.2

theorem countP_eq_of_evened (evened : Evened same alike items others) {item : α}
    (knownItem : among item) : items.countP (fun found => same found item) =
      others.countP fun found => same found item := by
  rw [← countP_selfEqual fun found inside alikeFound =>
      (comparison.firm (known found inside) knownItem alikeFound).1,
    ← countP_selfEqual fun found inside alikeFound =>
      (comparison.firm (knownToo found inside) knownItem alikeFound).1]
  exact evened.paired.members.countP_eq fun found other held =>
    comparison.left (forall_mem_selfEqual known found held.1)
      (forall_mem_selfEqual knownToo other held.2.1) knownItem held.2.2

theorem sameItems_left (knownLast : ∀ last ∈ lasts, among last)
    (evened : Evened same alike items others) (equal : sameItems same items lasts = true) :
    sameItems same others lasts = true := by
  refine sameItems_iff.mpr
    ⟨evened.length.symm.trans (sameItems_iff.mp equal).1, fun other member => ?_⟩
  have knownOther := knownToo other member
  cases itself : same other other with
  | false =>
      -- nothing is equal to an item that is not equal to itself
      have nothing : ∀ list : List α, (∀ found ∈ list, among found) →
          list.countP (fun found => same found other) = 0 := by
        intro list knownList
        refine List.countP_eq_zero.mpr fun found inside equalFound => ?_
        have firm := (comparison.firm (knownList found inside) knownOther equalFound).2
        exact Bool.false_ne_true (itself.symm.trans firm)
      rw [nothing others knownToo, nothing lasts knownLast]
  | true =>
      obtain ⟨item, inside, partner⟩ :=
        evened.paired.exists_left (mem_selfEqual_iff.mpr ⟨member, itself⟩)
      have inside := (mem_selfEqual_iff.mp inside).1
      have knownItem := known item inside
      rw [← comparison.countP_right knownToo knownItem knownOther partner,
        ← comparison.countP_right knownLast knownItem knownOther partner,
        ← comparison.countP_eq_of_evened known knownToo evened knownItem]
      exact (sameItems_iff.mp equal).2 item inside

theorem sameItems_right (knownFirst : ∀ first ∈ lasts, among first)
    (evened : Evened same alike items others) :
    sameItems same lasts items = sameItems same lasts others := by
  rw [Bool.eq_iff_iff, sameItems_iff, sameItems_iff, evened.length]
  refine and_congr_right fun _ => forall₂_congr fun first member => ?_
  rw [comparison.countP_eq_of_evened known knownToo evened (knownFirst first member)]

end Lists

theorem closed_itself : Closed among alike fun item => same item item where
  closed known knownToo held := by
    obtain ⟨itself, itselfToo⟩ :=
      comparison.firm known knownToo (comparison.holds known knownToo held)
    rw [itself, itselfToo]
  itself := comparison.itself

theorem closed_below [DecidableRel alike] {item : α} (knownItem : among item) :
    Closed among alike fun found => same found item && !decide (alike found item) where
  closed {found other} knownFound knownOther held := by
    have backward := comparison.symm knownFound knownOther held
    have both : alike found item ↔ alike other item :=
      ⟨comparison.trans knownOther knownFound knownItem backward,
        comparison.trans knownFound knownOther knownItem held⟩
    simp only [comparison.left knownFound knownOther knownItem held, both]
  itself {found} knownFound lower := by
    rw [Bool.and_eq_true] at lower
    exact comparison.itself knownFound (comparison.firm knownFound knownItem lower.1).1

section Counts

variable [DecidableRel alike]

theorem partialEquivalence_alike :
    PartialEquivalence among fun item other => decide (alike item other) where
  symm known knownToo held :=
    decide_eq_true (comparison.symm known knownToo (of_decide_eq_true held))
  trans known knownToo knownLast held onward := decide_eq_true (comparison.trans known knownToo
    knownLast (of_decide_eq_true held) (of_decide_eq_true onward))

theorem countP_same (known : ∀ item ∈ items, among item) {item : α} (knownItem : among item) :
    items.countP (fun found => same found item) =
      items.countP (fun found => decide (alike found item)) +
        items.countP fun found => same found item && !decide (alike found item) := by
  rw [List.countP_eq_countP_filter_add items _ fun found => decide (alike found item),
    List.countP_filter, List.countP_filter, Nat.add_right_cancel_iff]
  refine List.countP_congr fun found inside => ?_
  rw [Bool.and_eq_true, and_iff_right_iff_imp]
  exact fun held => comparison.holds (known found inside) knownItem (of_decide_eq_true held)

variable {check : α → Bool} (closed : Closed among alike check)

include closed

variable (known : ∀ item ∈ items, among item) (knownToo : ∀ other ∈ others, among other)

include known knownToo

theorem exists_matched_of_counts
    (counts : ∀ item ∈ items, check item = true →
      items.countP (fun found => decide (alike found item)) =
        others.countP fun found => decide (alike found item)) :
    ∃ matched left, (others.filter check).Perm (matched ++ left) ∧
      Paired (fun item other => decide (alike item other) = true) (items.filter check) matched := by
  refine comparison.partialEquivalence_alike.exists_matched
    (fun item member => known item (List.mem_of_mem_filter member))
    (fun item member => knownToo item (List.mem_of_mem_filter member))
    (fun item member => ?_) fun item member => Nat.le_of_eq ?_
  · obtain ⟨inside, checked⟩ := List.mem_filter.mp member
    exact decide_eq_true (closed.itself (known item inside) checked)
  · obtain ⟨inside, checked⟩ := List.mem_filter.mp member
    have knownItem := known item inside
    rw [closed.countP_filter known knownItem checked,
      closed.countP_filter knownToo knownItem checked, counts item inside checked]

/-- Items of which there are equally many in two lists can be paired off. -/
theorem paired_of_counts
    (counts : ∀ item, item ∈ items ∨ item ∈ others → check item = true →
      items.countP (fun found => decide (alike found item)) =
        others.countP fun found => decide (alike found item)) :
    Paired alike (items.filter check) (others.filter check) := by
  obtain ⟨matched, left, order, pairs⟩ := comparison.exists_matched_of_counts closed known knownToo
    fun item inside => counts item (.inl inside)
  obtain ⟨matchedToo, leftToo, orderToo, pairsToo⟩ :=
    comparison.exists_matched_of_counts closed knownToo known fun item inside checked =>
      (counts item (.inr inside) checked).symm
  have length := order.length_eq
  have lengthToo := orderToo.length_eq
  rw [List.length_append, ← pairs.length_eq] at length
  rw [List.length_append, ← pairsToo.length_eq] at lengthToo
  -- either list has room for the other, so that nothing is left over
  obtain rfl := List.length_eq_zero_iff.mp (show left.length = 0 by omega)
  rw [List.append_nil] at order
  exact .perm (pairs.imp fun _ _ held => of_decide_eq_true held) order.symm

end Counts

/-- Among finitely many items there is no way down without an end. -/
theorem wellFounded_below {pool : List α} (known : ∀ item ∈ pool, among item) :
    WellFounded (Below same alike pool) := by
  have finite : Finite { item : α // item ∈ pool } := List.finite_toSet pool
  have irrefl : Std.Irrefl (Relation.TransGen (Below same alike pool)) := by
    refine ⟨fun item circle => ?_⟩
    obtain ⟨next, step, onward⟩ := Relation.TransGen.head'_iff.mp circle
    have leads : LeadsTo among same next.1 item.1 := Relation.ReflTransGen.lift Subtype.val
      (fun first second below => ⟨known _ first.2, known _ second.2, below.1⟩) _ _ onward
    exact step.2 (comparison.back (known _ item.2) (known _ next.2) step.1 leads)
  have founded := Finite.wellFounded_of_trans_of_irrefl (Relation.TransGen (Below same alike pool))
  have sub : Subrelation (Below same alike pool) (Relation.TransGen (Below same alike pool)) :=
    fun below => .single below
  exact sub.wf founded

section Circles

variable [DecidableRel alike] {pool : List α} (known : ∀ item ∈ pool, among item)

include known

/-- Where as many items of two lists come below an item, no fewer of the second are alike it. -/
theorem countP_le_of_below (step : Within same pool items others) {item : α}
    (knownItem : among item)
    (below : items.countP (fun found => same found item && !decide (alike found item)) =
      others.countP fun found => same found item && !decide (alike found item)) :
    items.countP (fun found => decide (alike found item)) ≤
      others.countP fun found => decide (alike found item) := by
  rcases Nat.eq_zero_or_pos (items.countP fun found => decide (alike found item)) with
    none | some
  · exact none ▸ Nat.zero_le _
  · obtain ⟨found, inside, held⟩ := List.countP_pos_iff.mp some
    have knownItems := fun other member => known other (step.1 member)
    have knownOthers := fun other member => known other (step.2.1 member)
    have counted := (sameItems_iff.mp step.2.2).2 found inside
    have knownFound := knownItems found inside
    have held := of_decide_eq_true held
    rw [comparison.countP_right knownItems knownFound knownItem held,
      comparison.countP_right knownOthers knownFound knownItem held,
      comparison.countP_same knownItems knownItem,
      comparison.countP_same knownOthers knownItem] at counted
    omega

/-- On a circle of lists that are equal one after the other none has more items that are alike than
another. -/
theorem countP_eq_of_circle (item : { item : α // item ∈ pool })
    (step : Within same pool items others)
    (home : Relation.ReflTransGen (Within same pool) others items) :
    items.countP (fun found => decide (alike found item)) =
      others.countP fun found => decide (alike found item) := by
  -- what is below an item is known to be equally frequent, so that no step can lose the item
  induction item using (comparison.wellFounded_below known).induction generalizing items others with
  | _ item ih =>
      have knownItem := known item.1 item.2
      have rising : ∀ {items others : List α}, Within same pool items others →
          Relation.ReflTransGen (Within same pool) others items →
          items.countP (fun found => decide (alike found item)) ≤
            others.countP fun found => decide (alike found item) := by
        intro items others step home
        refine comparison.countP_le_of_below known step knownItem ?_
        rw [List.countP_eq_length_filter, List.countP_eq_length_filter]
        have knownItems := fun found member => known found (step.1 member)
        have knownOthers := fun found member => known found (step.2.1 member)
        refine (comparison.paired_of_counts (comparison.closed_below knownItem) knownItems knownOthers
          fun found member lower => ?_).length_eq
        rw [Bool.and_eq_true, Bool.not_eq_true', decide_eq_false_iff_not] at lower
        exact ih ⟨found, member.elim (step.1 ·) (step.2.1 ·)⟩ lower step home
      exact Nat.le_antisymm (rising step home) (le_of_circle rising home (.single step))

end Circles

/-- Lists are evened when the comparison of the second leads back to the first. -/
theorem evened_of_back (known : ∀ item ∈ items, among item)
    (knownToo : ∀ other ∈ others, among other) (equal : sameItems same items others = true)
    (home : LeadsTo (fun items => ∀ item ∈ items, among item) (sameItems same) others items) :
    Evened same alike items others := by
  classical
  have both := List.forall_mem_append.mpr ⟨known, knownToo⟩
  obtain ⟨pool, inside, knownPool, walk⟩ := exists_pool both home
  have insideItems := List.Subset.trans (List.subset_append_left items others) inside
  have insideOthers := List.Subset.trans (List.subset_append_right items others) inside
  refine ⟨(sameItems_iff.mp equal).1, comparison.paired_of_counts comparison.closed_itself known
    knownToo fun item member _ => ?_⟩
  exact comparison.countP_eq_of_circle knownPool
    ⟨item, member.elim (insideItems ·) (insideOthers ·)⟩ ⟨insideItems, insideOthers, equal⟩ walk

/-- Lists of items that are compared in one direction are so compared themselves. -/
theorem ofLists : OneWay (fun items => ∀ item ∈ items, among item) (sameItems same)
    (Evened same alike) where
  symm := comparison.evened_symm
  trans {first second third} known knownToo knownLast evened onward := by
    refine ⟨evened.length.trans onward.length, evened.paired.members.trans ?_ onward.paired.members⟩
    intro item between last held heldToo
    exact comparison.trans (forall_mem_selfEqual known item held.1)
      (forall_mem_selfEqual knownToo between held.2.1)
      (forall_mem_selfEqual knownLast last heldToo.2.1) held.2.2 heldToo.2.2
  holds known knownToo evened := comparison.sameItems_left knownToo known knownToo
    (comparison.evened_symm known knownToo evened) sameItems_self
  itself known _ := ⟨rfl, .ofForall₂ (List.forall₂_same.mpr fun item member =>
    comparison.itself (forall_mem_selfEqual known item member) (mem_selfEqual_iff.mp member).2)⟩
  firm _ _ _ := ⟨sameItems_self, sameItems_self⟩
  left known knownToo knownLast evened := Bool.eq_iff_iff.mpr
    ⟨comparison.sameItems_left known knownToo knownLast evened,
      comparison.sameItems_left knownToo known knownLast
        (comparison.evened_symm known knownToo evened)⟩
  right known knownToo knownLast evened :=
    comparison.sameItems_right known knownToo knownLast evened
  back := comparison.evened_of_back

/-! Comparisons of parts -/

variable {β : Type}

/-- Items of which two parts are compared. -/
theorem both {amongToo : β → Prop} {sameToo : β → β → Bool} {alikeToo : β → β → Prop} {γ : Type}
    (comparisonToo : OneWay amongToo sameToo alikeToo) (first : γ → α) (second : γ → β) :
    OneWay (fun item => among (first item) ∧ amongToo (second item))
      (fun item other => same (first item) (first other) && sameToo (second item) (second other))
      (fun item other =>
        alike (first item) (first other) ∧ alikeToo (second item) (second other)) where
  symm known knownToo held := ⟨comparison.symm known.1 knownToo.1 held.1,
    comparisonToo.symm known.2 knownToo.2 held.2⟩
  trans known knownToo knownLast held onward :=
    ⟨comparison.trans known.1 knownToo.1 knownLast.1 held.1 onward.1,
      comparisonToo.trans known.2 knownToo.2 knownLast.2 held.2 onward.2⟩
  holds known knownToo held := (Bool.and_eq_true _ _).mpr
    ⟨comparison.holds known.1 knownToo.1 held.1, comparisonToo.holds known.2 knownToo.2 held.2⟩
  itself known equal := by
    rw [Bool.and_eq_true] at equal
    exact ⟨comparison.itself known.1 equal.1, comparisonToo.itself known.2 equal.2⟩
  firm known knownToo equal := by
    rw [Bool.and_eq_true] at equal
    obtain ⟨itself, itselfToo⟩ := comparison.firm known.1 knownToo.1 equal.1
    obtain ⟨secondItself, secondItselfToo⟩ := comparisonToo.firm known.2 knownToo.2 equal.2
    rw [itself, itselfToo, secondItself, secondItselfToo]
    exact ⟨rfl, rfl⟩
  left known knownToo knownLast held := by
    rw [comparison.left known.1 knownToo.1 knownLast.1 held.1,
      comparisonToo.left known.2 knownToo.2 knownLast.2 held.2]
  right known knownToo knownLast held := by
    rw [comparison.right known.1 knownToo.1 knownLast.1 held.1,
      comparisonToo.right known.2 knownToo.2 knownLast.2 held.2]
  back known knownToo equal home := by
    rw [Bool.and_eq_true] at equal
    have homeFirst : LeadsTo among same _ _ := Relation.ReflTransGen.lift first
      (fun _ _ step => ⟨step.1.1, step.2.1.1, ((Bool.and_eq_true _ _).mp step.2.2).1⟩) _ _ home
    have homeSecond : LeadsTo amongToo sameToo _ _ := Relation.ReflTransGen.lift second
      (fun _ _ step => ⟨step.1.2, step.2.1.2, ((Bool.and_eq_true _ _).mp step.2.2).2⟩) _ _ home
    exact ⟨comparison.back known.1 knownToo.1 equal.1 homeFirst,
      comparisonToo.back known.2 knownToo.2 equal.2 homeSecond⟩

/-- A comparison can be stated in other words, among fewer items. -/
theorem restate {amongToo : α → Prop} {sameToo : α → α → Bool} {alikeToo : α → α → Prop}
    (fewer : ∀ item, amongToo item → among item)
    (equal : ∀ item other, amongToo item → amongToo other → sameToo item other = same item other)
    (held : ∀ item other, amongToo item → amongToo other →
      (alikeToo item other ↔ alike item other)) : OneWay amongToo sameToo alikeToo where
  symm known knownToo now := (held _ _ knownToo known).mpr
    (comparison.symm (fewer _ known) (fewer _ knownToo) ((held _ _ known knownToo).mp now))
  trans known knownToo knownLast now onward := (held _ _ known knownLast).mpr
    (comparison.trans (fewer _ known) (fewer _ knownToo) (fewer _ knownLast)
      ((held _ _ known knownToo).mp now) ((held _ _ knownToo knownLast).mp onward))
  holds known knownToo now := (equal _ _ known knownToo).trans
    (comparison.holds (fewer _ known) (fewer _ knownToo) ((held _ _ known knownToo).mp now))
  itself known now := (held _ _ known known).mpr
    (comparison.itself (fewer _ known) ((equal _ _ known known).symm.trans now))
  firm known knownToo now := by
    rw [equal _ _ known knownToo] at now
    rw [equal _ _ known known, equal _ _ knownToo knownToo]
    exact comparison.firm (fewer _ known) (fewer _ knownToo) now
  left known knownToo knownLast now := by
    rw [equal _ _ known knownLast, equal _ _ knownToo knownLast]
    exact comparison.left (fewer _ known) (fewer _ knownToo) (fewer _ knownLast)
      ((held _ _ known knownToo).mp now)
  right known knownToo knownLast now := by
    rw [equal _ _ knownLast known, equal _ _ knownLast knownToo]
    exact comparison.right (fewer _ known) (fewer _ knownToo) (fewer _ knownLast)
      ((held _ _ known knownToo).mp now)
  back known knownToo now home := by
    rw [equal _ _ known knownToo] at now
    have homeward : LeadsTo among same _ _ := Relation.ReflTransGen.mono (fun _ _ step =>
      ⟨fewer _ step.1, fewer _ step.2.1, (equal _ _ step.1 step.2.1).symm.trans step.2.2⟩) _ _ home
    exact (held _ _ known knownToo).mpr
      (comparison.back (fewer _ known) (fewer _ knownToo) now homeward)

theorem ofOptions : OneWay (fun item? : Option α => ∀ item ∈ item?, among item) (sameOption same)
    (Option.Rel alike) where
  symm known knownToo held := by
    cases held with
    | none => exact .none
    | some held => exact .some (comparison.symm (known _ rfl) (knownToo _ rfl) held)
  trans known knownToo knownLast held onward := by
    cases held with
    | none => exact onward
    | some held =>
        cases onward with
        | some onward =>
            exact .some (comparison.trans (known _ rfl) (knownToo _ rfl) (knownLast _ rfl) held
              onward)
  holds known knownToo held := by
    cases held with
    | none => rfl
    | some held => exact comparison.holds (known _ rfl) (knownToo _ rfl) held
  itself {item?} known equal := by
    cases item? with
    | none => exact .none
    | some item => exact .some (comparison.itself (known _ rfl) equal)
  firm {item? other?} known knownToo equal := by
    cases item? with
    | none =>
        cases other? with
        | none => exact ⟨rfl, rfl⟩
        | some other => cases equal
    | some item =>
        cases other? with
        | none => cases equal
        | some other => exact comparison.firm (known _ rfl) (knownToo _ rfl) equal
  left {item? other? third?} known knownToo knownLast held := by
    cases held with
    | none => rfl
    | some held =>
        cases third? with
        | none => rfl
        | some third => exact comparison.left (known _ rfl) (knownToo _ rfl) (knownLast _ rfl) held
  right {item? other? third?} known knownToo knownLast held := by
    cases held with
    | none => rfl
    | some held =>
        cases third? with
        | none => rfl
        | some third => exact comparison.right (known _ rfl) (knownToo _ rfl) (knownLast _ rfl) held
  back {item? other?} known knownToo equal home := by
    cases item? with
    | none =>
        cases other? with
        | none => exact .none
        | some other => cases equal
    | some item =>
        cases other? with
        | none => cases equal
        | some other =>
            have homeward : LeadsTo among same other item := by
              refine Relation.ReflTransGen.lift' (fun item? => item?.getD item) ?_ _ _ home
              rintro (_ | first) (_ | second) ⟨knownFirst, knownSecond, step⟩
              · exact .refl
              · cases step
              · cases step
              · exact .single ⟨knownFirst first rfl, knownSecond second rfl, step⟩
            exact .some (comparison.back (known _ rfl) (knownToo _ rfl) equal homeward)

end OneWay

theorem PartialEquivalence.ofLawful [BEq α] [LawfulBEq α] :
    PartialEquivalence (fun _ : α => True) (· == ·) where
  symm _ _ equal := BEq.symm equal
  trans _ _ _ equal onward := BEq.trans equal onward

/-- Where the comparison is symmetric, what it holds of is alike. -/
theorem PartialEquivalence.oneWay {among : α → Prop} {same : α → α → Bool}
    (equality : PartialEquivalence among same) :
    OneWay among same fun item other => same item other = true where
  symm := equality.symm
  trans := equality.trans
  holds _ _ held := held
  itself _ equal := equal
  firm known knownToo equal := ⟨equality.self_of_same known knownToo equal,
    equality.self_of_same knownToo known (equality.symm known knownToo equal)⟩
  left known knownToo knownLast held := equality.same_congr known knownToo knownLast held
  right known knownToo knownLast held := Bool.eq_iff_iff.mpr
    ⟨fun equal => equality.trans knownLast known knownToo equal held,
      fun equal => equality.trans knownLast knownToo known equal
        (equality.symm known knownToo held)⟩
  back _ _ equal _ := equal

end GraphQuery
