import GraphQuery.Value.Basic
import Mathlib.Data.List.Forall2
import Mathlib.Data.List.Nodup
import Mathlib.Data.List.Perm.Subperm

/-!
Equality of values. It is transitive for all values, symmetric for values whose objects name each
entry once, and reflexive for those of them that hold no NaN.
-/

namespace GraphQuery

namespace Binary64

variable {x y z : Binary64}

theorem beq_symm (same : x.beq y = true) : y.beq x = true := by
  simp only [Binary64.beq, Bool.and_eq_true, Bool.or_eq_true, beq_iff_eq] at same ⊢
  obtain ⟨⟨left, right⟩, equal | zero⟩ := same
  · exact ⟨⟨right, left⟩, .inl equal.symm⟩
  · exact ⟨⟨right, left⟩, .inr zero.symm⟩

theorem isZero_of_bits (equal : x.bits = y.bits) : x.isZero = y.isZero := by
  cases x
  cases y
  cases equal
  rfl

theorem beq_trans (same : x.beq y = true) (onward : y.beq z = true) : x.beq z = true := by
  simp only [Binary64.beq, Bool.and_eq_true, Bool.or_eq_true, beq_iff_eq] at same onward ⊢
  refine ⟨⟨same.1.1, onward.1.2⟩, ?_⟩
  obtain ⟨_, equal | zero⟩ := same <;> obtain ⟨_, equalToo | zeroToo⟩ := onward
  · exact .inl (equal.trans equalToo)
  · exact .inr ⟨(isZero_of_bits equal).trans zeroToo.1, zeroToo.2⟩
  · exact .inr ⟨zero.1, (isZero_of_bits equalToo).symm.trans zero.2⟩
  · exact .inr ⟨zero.1, zeroToo.2⟩

theorem beq_refl (number : x.isNaN = false) : x.beq x = true := by
  simp [Binary64.beq, number]

end Binary64

namespace Value

mutual

def every (check : Value → Bool) : Value → Bool
  | list items => check (list items) && everyItem check items
  | object entries => check (object entries) && everyEntry check entries
  | value => check value

def everyItem (check : Value → Bool) : List Value → Bool
  | [] => true
  | item :: rest => every check item && everyItem check rest

def everyEntry (check : Value → Bool) : List (String × Value) → Bool
  | [] => true
  | (_, value) :: rest => every check value && everyEntry check rest

end

def namesOnce : Value → Bool
  | object entries => decide (Entries.keys entries).Nodup
  | _ => true

def isNotNaN : Value → Bool
  | float number => !number.isNaN
  | _ => true

/-- Objects are made of entries under different names, on every level. -/
def isKeyed (value : Value) : Bool :=
  value.every namesOnce

def isNaNFree (value : Value) : Bool :=
  value.every isNotNaN

/-- Induction over the values within a value. -/
theorem induct {motive : Value → Prop}
    (ofScalar : ∀ value : Value, value.items? = none → value.entries? = none → motive value)
    (ofList : ∀ items, (∀ item ∈ items, motive item) → motive (list items))
    (ofObject : ∀ entries : List (String × Value), (∀ entry ∈ entries, motive entry.2) →
      motive (object entries)) (value : Value) : motive value := by
  induction size : sizeOf value using Nat.strongRecOn generalizing value with
  | ind size ih =>
      subst size
      cases value with
      | list items =>
          refine ofList items fun item member => ih _ ?_ item rfl
          have smaller := List.sizeOf_lt_of_mem member
          simp only [list.sizeOf_spec]
          omega
      | object entries =>
          refine ofObject entries fun entry member => ih _ ?_ entry.2 rfl
          have smaller := List.sizeOf_lt_of_mem member
          obtain ⟨name, value⟩ := entry
          simp only [object.sizeOf_spec, Prod.mk.sizeOf_spec] at smaller ⊢
          omega
      | _ => exact ofScalar _ rfl rfl

variable {check : Value → Bool} {items others : List Value}
  {entries otherEntries : List (String × Value)}

theorem everyItem_iff : everyItem check items = true ↔ ∀ item ∈ items, item.every check = true := by
  induction items with
  | nil => simp [everyItem]
  | cons item rest ih => simp [everyItem, ih]

theorem everyEntry_iff :
    everyEntry check entries = true ↔ ∀ entry ∈ entries, entry.2.every check = true := by
  induction entries with
  | nil => simp [everyEntry]
  | cons entry rest ih => simp [everyEntry, ih]

theorem every_object_iff : (object entries).every check = true ↔
    check (object entries) = true ∧ ∀ entry ∈ entries, entry.2.every check = true := by
  rw [every, Bool.and_eq_true, everyEntry_iff]

theorem every_list_iff : (list items).every check = true ↔
    check (list items) = true ∧ ∀ item ∈ items, item.every check = true := by
  rw [every, Bool.and_eq_true, everyItem_iff]

theorem sameItems_iff : sameItems items others = true ↔
    List.Forall₂ (fun item other => item.beq other = true) items others := by
  induction items generalizing others with
  | nil => cases others <;> simp [sameItems]
  | cons item rest ih =>
      cases others with
      | nil => simp [sameItems]
      | cons other others => simp [sameItems, ih]

theorem sameEntries_iff : sameEntries entries otherEntries = true ↔
    ∀ entry ∈ entries, ∃ other, Entries.find? otherEntries entry.1 = some other ∧
      entry.2.beq other = true := by
  induction entries with
  | nil => simp [sameEntries]
  | cons entry rest ih =>
      simp only [sameEntries, Bool.and_eq_true, ih, List.forall_mem_cons]
      refine and_congr_left fun _ => ?_
      cases Entries.find? otherEntries entry.1 <;> simp

theorem beq_object_iff : (object entries).beq (object otherEntries) = true ↔
    entries.length = otherEntries.length ∧ ∀ entry ∈ entries, ∃ other,
      Entries.find? otherEntries entry.1 = some other ∧ entry.2.beq other = true := by
  rw [Value.beq, Bool.and_eq_true, beq_iff_eq, sameEntries_iff]

theorem beq_list_iff : (list items).beq (list others) = true ↔
    List.Forall₂ (fun item other => item.beq other = true) items others := by
  rw [Value.beq, sameItems_iff]

theorem list_of_beq {value : Value} (same : (list items).beq value = true) :
    ∃ others, value = list others := by
  cases value <;> simp_all [Value.beq]

theorem object_of_beq {value : Value} (same : (object entries).beq value = true) :
    ∃ others, value = object others := by
  cases value <;> simp_all [Value.beq]

theorem scalar_of_beq {value other : Value} (notList : value.items? = none)
    (notObject : value.entries? = none) (same : value.beq other = true) :
    value = other ∨ ∃ x y, value = float x ∧ other = float y ∧ x.beq y = true := by
  cases value with
  | list items => simp [items?] at notList
  | object entries => simp [entries?] at notObject
  | float x =>
      cases other <;> simp only [Value.beq, Bool.false_eq_true] at same
      exact .inr ⟨_, _, rfl, rfl, same⟩
  | _ => cases other <;> simp_all [Value.beq]

theorem beq_trans {first second third : Value} (same : first.beq second = true)
    (onward : second.beq third = true) : first.beq third = true := by
  induction first using induct generalizing second third with
  | ofScalar value notList notObject =>
      obtain rfl | ⟨x, y, rfl, rfl, equal⟩ := scalar_of_beq notList notObject same
      · exact onward
      · obtain rfl | ⟨y, z, first, rfl, equalToo⟩ := scalar_of_beq rfl rfl onward
        · exact same
        · cases first
          exact Binary64.beq_trans equal equalToo
  | ofList items ih =>
      obtain ⟨others, rfl⟩ := list_of_beq same
      obtain ⟨lasts, rfl⟩ := list_of_beq onward
      rw [beq_list_iff] at same onward ⊢
      induction same generalizing lasts with
      | nil => cases onward; exact .nil
      | cons first _ ihRest =>
          cases onward with
          | cons second onward =>
              refine .cons (ih _ List.mem_cons_self first second) ?_
              exact ihRest (fun item member => ih item (List.mem_cons_of_mem _ member)) _ onward
  | ofObject entries ih =>
      obtain ⟨others, rfl⟩ := object_of_beq same
      obtain ⟨lasts, rfl⟩ := object_of_beq onward
      rw [beq_object_iff] at same onward ⊢
      refine ⟨same.1.trans onward.1, ?_⟩
      intro entry member
      obtain ⟨middle, found, first⟩ := same.2 entry member
      obtain ⟨last, foundLast, second⟩ := onward.2 _ (Entries.mem_of_find? found)
      exact ⟨last, foundLast, ih entry member first second⟩

/-- When the names of one list are different and in another of its length, the other has no more. -/
theorem names_of_included (nodup : (Entries.keys entries).Nodup)
    (length : entries.length = otherEntries.length)
    (included : ∀ entry ∈ entries, entry.1 ∈ Entries.keys otherEntries) :
    ∀ entry ∈ otherEntries, entry.1 ∈ Entries.keys entries := by
  have within : (Entries.keys entries).Subperm (Entries.keys otherEntries) := by
    refine nodup.subperm fun name member => ?_
    obtain ⟨entry, inside, rfl⟩ := List.mem_map.mp member
    exact included entry inside
  have perm := within.perm_of_length_le (by simp [Entries.keys, length])
  intro entry member
  exact perm.mem_iff.mpr (List.mem_map.mpr ⟨entry, member, rfl⟩)

theorem beq_symm {value other : Value} (keyed : value.isKeyed = true)
    (keyedToo : other.isKeyed = true) (same : value.beq other = true) :
    other.beq value = true := by
  induction value using induct generalizing other with
  | ofScalar value notList notObject =>
      obtain rfl | ⟨x, y, rfl, rfl, equal⟩ := scalar_of_beq notList notObject same
      · exact same
      · exact Binary64.beq_symm equal
  | ofList items ih =>
      obtain ⟨others, rfl⟩ := list_of_beq same
      rw [beq_list_iff] at same ⊢
      rw [isKeyed, every_list_iff] at keyed keyedToo
      induction same with
      | nil => exact .nil
      | cons first _ ihRest =>
          simp only [List.forall_mem_cons] at ih keyed keyedToo
          exact .cons (ih.1 keyed.2.1 keyedToo.2.1 first)
            (ihRest ih.2 ⟨rfl, keyed.2.2⟩ ⟨rfl, keyedToo.2.2⟩)
  | ofObject entries ih =>
      obtain ⟨others, rfl⟩ := object_of_beq same
      rw [beq_object_iff] at same ⊢
      rw [isKeyed, every_object_iff] at keyed keyedToo
      simp only [namesOnce, decide_eq_true_eq] at keyed keyedToo
      refine ⟨same.1.symm, ?_⟩
      have included : ∀ entry ∈ entries, entry.1 ∈ Entries.keys others := by
        intro entry member
        obtain ⟨other, found, _⟩ := same.2 entry member
        exact Entries.mem_keys_of_find? found
      intro entry member
      have known := names_of_included keyed.1 same.1 included entry member
      obtain ⟨entryToo, memberToo, sameName⟩ := List.mem_map.mp known
      obtain ⟨found, foundSame, equal⟩ := same.2 entryToo memberToo
      rw [sameName, Entries.find?_of_mem keyedToo.1 member] at foundSame
      obtain rfl := Option.some.inj foundSame
      refine ⟨entryToo.2, ?_, ?_⟩
      · rw [← sameName]
        exact Entries.find?_of_mem keyed.1 memberToo
      · exact ih entryToo memberToo (keyed.2 entryToo memberToo) (keyedToo.2 entry member) equal

theorem beq_refl {value : Value} (keyed : value.isKeyed = true) (numbers : value.isNaNFree = true) :
    value.beq value = true := by
  induction value using induct with
  | ofScalar value notList notObject =>
      cases value with
      | float number =>
          have isNumber : number.isNaN = false := by
            simpa [isNaNFree, every, isNotNaN] using numbers
          exact Binary64.beq_refl isNumber
      | list items => simp [items?] at notList
      | object entries => simp [entries?] at notObject
      | _ => simp [Value.beq]
  | ofList items ih =>
      rw [isKeyed, every_list_iff] at keyed
      rw [isNaNFree, every_list_iff] at numbers
      rw [beq_list_iff, List.forall₂_same]
      exact fun item member => ih item member (keyed.2 item member) (numbers.2 item member)
  | ofObject entries ih =>
      rw [isKeyed, every_object_iff] at keyed
      rw [isNaNFree, every_object_iff] at numbers
      simp only [namesOnce, decide_eq_true_eq] at keyed
      rw [beq_object_iff]
      refine ⟨rfl, fun entry member => ⟨entry.2, Entries.find?_of_mem keyed.1 member, ?_⟩⟩
      exact ih entry member (keyed.2 entry member) (numbers.2 entry member)

end Value

end GraphQuery
