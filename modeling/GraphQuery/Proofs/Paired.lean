import GraphQuery.Proofs.Except
import Mathlib.Data.List.Perm.Basic

/-!
Lists whose items can be paired off, one related pair after another, whatever their order.
-/

namespace GraphQuery

variable {α β γ δ κ : Type}

inductive Paired (related : α → β → Prop) : List α → List β → Prop
  | nil : Paired related [] []
  | cons {item : α} {other : β} {items : List α} {others : List β} :
      related item other → Paired related items others →
      Paired related (item :: items) (other :: others)
  | perm {items : List α} {others reordered : List β} :
      Paired related items others → others.Perm reordered → Paired related items reordered

namespace Paired

variable {related : α → β → Prop} {items : List α} {others : List β}

theorem single {item : α} {other : β} (pair : related item other) :
    Paired related [item] [other] :=
  .cons pair .nil

theorem imp {relatedToo : α → β → Prop} (weaker : ∀ item other, related item other →
    relatedToo item other) (paired : Paired related items others) :
    Paired relatedToo items others := by
  induction paired with
  | nil => exact .nil
  | cons pair _ ih => exact .cons (weaker _ _ pair) ih
  | perm _ order ih => exact .perm ih order

/-- The items that are paired are items of the two lists. -/
theorem members (paired : Paired related items others) :
    Paired (fun item other => item ∈ items ∧ other ∈ others ∧ related item other) items others := by
  induction paired with
  | nil => exact .nil
  | cons pair _ ih =>
      refine .cons ⟨List.mem_cons_self, List.mem_cons_self, pair⟩ (ih.imp ?_)
      rintro _ _ ⟨member, memberToo, held⟩
      exact ⟨List.mem_cons_of_mem _ member, List.mem_cons_of_mem _ memberToo, held⟩
  | perm _ order ih =>
      exact .perm (ih.imp fun _ _ held => ⟨held.1, order.subset held.2.1, held.2.2⟩) order

theorem exists_right (paired : Paired related items others) {item : α} (member : item ∈ items) :
    ∃ other ∈ others, related item other := by
  induction paired with
  | nil => cases member
  | cons pair _ ih =>
      rcases List.mem_cons.mp member with rfl | member
      · exact ⟨_, List.mem_cons_self, pair⟩
      · obtain ⟨other, inside, pair⟩ := ih member
        exact ⟨other, List.mem_cons_of_mem _ inside, pair⟩
  | perm _ order ih =>
      obtain ⟨other, inside, pair⟩ := ih member
      exact ⟨other, order.subset inside, pair⟩

theorem aligned (paired : Paired related items others) :
    ∃ middle, List.Forall₂ related items middle ∧ middle.Perm others := by
  induction paired with
  | nil => exact ⟨[], .nil, .nil⟩
  | cons pair _ ih =>
      obtain ⟨middle, aligned, order⟩ := ih
      exact ⟨_, .cons pair aligned, order.cons _⟩
  | perm _ order ih =>
      obtain ⟨middle, aligned, before⟩ := ih
      exact ⟨middle, aligned, before.trans order⟩

theorem ofForall₂ (aligned : List.Forall₂ related items others) : Paired related items others := by
  induction aligned with
  | nil => exact .nil
  | cons pair _ ih => exact .cons pair ih

theorem reorder {reordered : List α} (order : items.Perm reordered)
    (paired : Paired related items others) : Paired related reordered others := by
  obtain ⟨middle, aligned, onward⟩ := paired.aligned
  obtain ⟨between, alignedToo, before⟩ := List.perm_comp_forall₂ order.symm aligned
  exact .perm (.ofForall₂ alignedToo) (before.trans onward)

theorem symm (paired : Paired related items others) :
    Paired (fun other item => related item other) others items := by
  induction paired with
  | nil => exact .nil
  | cons pair _ ih => exact .cons pair ih
  | perm _ order ih => exact ih.reorder order

theorem exists_left (paired : Paired related items others) {other : β} (member : other ∈ others) :
    ∃ item ∈ items, related item other :=
  paired.symm.exists_right member

theorem length_eq (paired : Paired related items others) : items.length = others.length := by
  obtain ⟨middle, aligned, order⟩ := paired.aligned
  exact aligned.length_eq.trans order.length_eq

theorem eq_nil_iff (paired : Paired related items others) : items = [] ↔ others = [] := by
  rw [← List.length_eq_zero_iff, paired.length_eq, List.length_eq_zero_iff]

theorem append {itemsToo : List α} {othersToo : List β} (paired : Paired related items others)
    (pairedToo : Paired related itemsToo othersToo) :
    Paired related (items ++ itemsToo) (others ++ othersToo) := by
  induction paired with
  | nil => exact pairedToo
  | cons pair _ ih => exact .cons pair ih
  | perm _ order ih => exact .perm ih (order.append_right _)

theorem flatMap {relatedToo : γ → δ → Prop} {first : α → List γ} {second : β → List δ}
    (each : ∀ item other, related item other → Paired relatedToo (first item) (second other))
    (paired : Paired related items others) :
    Paired relatedToo (items.flatMap first) (others.flatMap second) := by
  induction paired with
  | nil => exact .nil
  | cons pair _ ih => exact (each _ _ pair).append ih
  | perm _ order ih => exact .perm ih (order.flatMap_right _)

theorem map {relatedToo : γ → δ → Prop} {first : α → γ} {second : β → δ}
    (each : ∀ item other, related item other → relatedToo (first item) (second other))
    (paired : Paired related items others) :
    Paired relatedToo (items.map first) (others.map second) := by
  induction paired with
  | nil => exact .nil
  | cons pair _ ih => exact .cons (each _ _ pair) ih
  | perm _ order ih => exact .perm ih (order.map _)

theorem filterMap {relatedToo : γ → δ → Prop} {first : α → Option γ} {second : β → Option δ}
    (each : ∀ item other, related item other → Option.Rel relatedToo (first item) (second other))
    (paired : Paired related items others) :
    Paired relatedToo (items.filterMap first) (others.filterMap second) := by
  induction paired with
  | nil => exact .nil
  | @cons item other _ _ pair _ ih =>
      have found := each item other pair
      rw [List.filterMap_cons, List.filterMap_cons]
      generalize first item = left, second other = right at found
      cases found with
      | none => exact ih
      | some held => exact .cons held ih
  | perm _ order ih => exact .perm ih (order.filterMap _)

theorem filter {first : α → Bool} {second : β → Bool}
    (each : ∀ item other, related item other → first item = second other)
    (paired : Paired related items others) :
    Paired related (items.filter first) (others.filter second) := by
  induction paired with
  | nil => exact .nil
  | @cons item other _ _ pair _ ih =>
      rw [List.filter_cons, List.filter_cons, each item other pair]
      split
      · exact .cons pair ih
      · exact ih
  | perm _ order ih => exact .perm ih (order.filter _)

theorem any_eq {first : α → Bool} {second : β → Bool}
    (each : ∀ item other, related item other → first item = second other)
    (paired : Paired related items others) : items.any first = others.any second := by
  induction paired with
  | nil => rfl
  | @cons item other _ _ pair _ ih => rw [List.any_cons, List.any_cons, each item other pair, ih]
  | perm _ order ih => rw [ih, order.any_eq]

theorem countP_eq {first : α → Bool} {second : β → Bool}
    (each : ∀ item other, related item other → first item = second other)
    (paired : Paired related items others) : items.countP first = others.countP second := by
  rw [List.countP_eq_length_filter, List.countP_eq_length_filter, (paired.filter each).length_eq]

theorem congr {relatedToo : α → β → Prop}
    (each : ∀ item ∈ items, ∀ other ∈ others, related item other ↔ relatedToo item other) :
    Paired related items others ↔ Paired relatedToo items others := by
  constructor
  · intro paired
    exact paired.members.imp fun item other held =>
      (each item held.1 other held.2.1).mp held.2.2
  · intro paired
    exact paired.members.imp fun item other held =>
      (each item held.1 other held.2.1).mpr held.2.2

theorem trans {onward : β → γ → Prop} {whole : α → γ → Prop} {lasts : List γ}
    (each : ∀ item between last, related item between → onward between last → whole item last)
    (paired : Paired related items others) (pairedToo : Paired onward others lasts) :
    Paired whole items lasts := by
  obtain ⟨middle, aligned, order⟩ := paired.aligned
  obtain ⟨middleToo, alignedToo, orderToo⟩ := (pairedToo.reorder order.symm).aligned
  exact .perm (.ofForall₂ (forall₂_through aligned alignedToo each)) orderToo

/-- Items under the same keys are paired when those of one key are related. -/
theorem ofKeys (key : α → κ) (keyToo : β → κ) (keys : (items.map key).Perm (others.map keyToo))
    (each : ∀ item ∈ items, ∀ other ∈ others, key item = keyToo other → related item other) :
    Paired related items others := by
  induction items generalizing others with
  | nil =>
      obtain rfl := List.map_eq_nil_iff.mp keys.nil_eq.symm
      exact .nil
  | cons item rest ih =>
      obtain ⟨other, member, same⟩ := List.mem_map.mp (keys.subset List.mem_cons_self)
      obtain ⟨before, after, rfl⟩ := List.append_of_mem member
      have moved : (other :: (before ++ after)).Perm (before ++ other :: after) :=
        List.perm_middle.symm
      have whole := keys.trans (moved.symm.map keyToo)
      rw [List.map_cons, List.map_cons, same] at whole
      refine .perm (.cons (each item List.mem_cons_self other member same.symm)
        (ih whole.cons_inv ?_)) moved
      exact fun found inside partner insideToo => each found (List.mem_cons_of_mem _ inside) partner
        (moved.subset (List.mem_cons_of_mem _ insideToo))

end Paired

end GraphQuery
