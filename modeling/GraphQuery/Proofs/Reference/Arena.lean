import GraphQuery.Reference

/-!
Tables of references as they grow: an entry keeps its index, and refers back to an earlier entry.
-/

namespace GraphQuery.References

def Extends (references final : References) : Prop :=
  ∀ index reference, references.get? index = some reference → final.get? index = some reference

def Ordered (references : References) : Prop :=
  ∀ index reference back,
    references.get? index = some reference → reference.back? = some back → back < index

theorem Extends.refl (references : References) : references.Extends references :=
  fun _ _ found => found

theorem Extends.trans {references middle final : References} (first : references.Extends middle)
    (second : middle.Extends final) : references.Extends final :=
  fun index reference found => second index reference (first index reference found)

theorem lt_size_iff {references : References} {index : Nat} :
    index < references.size ↔ ∃ reference, references.get? index = some reference := by
  constructor
  · intro bound
    exact ⟨references.entries.getD index ⟨none, none, .any⟩, by
      simp only [size] at bound
      simp [get?, bound]⟩
  · rintro ⟨reference, found⟩
    exact (Array.getElem?_eq_some_iff.mp found).1

theorem lt_size_of_get? {references : References} {index : Nat} {reference : Reference}
    (found : references.get? index = some reference) : index < references.size :=
  lt_size_iff.mpr ⟨reference, found⟩

theorem Extends.lt_size {references final : References} (grown : references.Extends final)
    {index : Nat} (bound : index < references.size) : index < final.size := by
  obtain ⟨reference, found⟩ := lt_size_iff.mp bound
  exact lt_size_of_get? (grown index reference found)

theorem ty_of_get? {references : References} {index : Nat} {reference : Reference}
    (found : references.get? index = some reference) : references.ty index = reference.ty := by
  simp [ty, found]

theorem Extends.ty_eq {references final : References} (grown : references.Extends final)
    {index : Nat} (bound : index < references.size) : final.ty index = references.ty index := by
  obtain ⟨reference, found⟩ := lt_size_iff.mp bound
  rw [ty_of_get? found, ty_of_get? (grown index reference found)]

theorem get?_push (references : References) (reference : Reference) (index : Nat) :
    (references.push reference).1.get? index =
      if index = references.size then some reference else references.get? index := by
  simp only [push, get?, size]
  exact Array.getElem?_push

theorem get?_push_self (references : References) (reference : Reference) :
    (references.push reference).1.get? references.size = some reference := by
  simp [get?_push]

theorem extends_push (references : References) (reference : Reference) :
    references.Extends (references.push reference).1 := by
  intro index entry found
  have bound := lt_size_of_get? found
  rw [get?_push, if_neg (by omega)]
  exact found

theorem Ordered.push {references : References} (ordered : references.Ordered)
    {reference : Reference}
    (earlier : ∀ back, reference.back? = some back → back < references.size) :
    (references.push reference).1.Ordered := by
  intro index entry back found refers
  rw [get?_push] at found
  split at found
  · rename_i last
    simp only [Option.some.injEq] at found
    subst found
    have := earlier back refers
    omega
  · exact ordered index entry back found refers

theorem ordered_empty : empty.Ordered := by
  intro index reference back found
  simp [empty, get?] at found

/-! References that refer back -/

inductive Grows (references : References) : References → Prop
  | refl : Grows references references
  | push {middle back label? ty} : Grows references middle →
      Grows references (middle.push ⟨some back, label?, ty⟩).1

theorem Grows.trans {references middle final : References} (first : references.Grows middle)
    (second : middle.Grows final) : references.Grows final := by
  induction second with
  | refl => exact first
  | push _ ih => exact .push ih

theorem Grows.keeps {references final : References} (grown : references.Grows final) :
    references.Extends final := by
  induction grown with
  | refl => exact .refl _
  | push _ ih => exact ih.trans (extends_push _ _)

theorem Grows.of_get? {references final : References} (grown : references.Grows final)
    {index : Nat} {reference : Reference} (found : final.get? index = some reference) :
    references.get? index = some reference ∨ ∃ back, reference.back? = some back := by
  induction grown with
  | refl => exact .inl found
  | push _ ih =>
      rw [get?_push] at found
      split at found
      · obtain rfl := Option.some.inj found
        exact .inr ⟨_, rfl⟩
      · exact ih found

/-! Walking back -/

theorem chainWithin_eq {references : References} (ordered : references.Ordered) :
    ∀ steps more index, index < steps → index < more →
      references.chainWithin steps index = references.chainWithin more index := by
  intro steps
  induction steps with
  | zero => intro more index enough; omega
  | succ steps ih =>
      intro more index enough enoughToo
      obtain ⟨more, rfl⟩ : ∃ rest, more = rest + 1 := ⟨more - 1, by omega⟩
      simp only [chainWithin]
      cases found : references.get? index with
      | none => rfl
      | some reference =>
          cases refers : reference.back? with
          | none => simp [refers]
          | some back =>
              have earlier := ordered index reference back found refers
              simp only [refers]
              rw [ih more back (by omega) (by omega)]

theorem chain_of_root {references : References} {index : Nat} {reference : Reference}
    (found : references.get? index = some reference) (root : reference.back? = none) :
    references.chain index = [reference] := by
  simp [chain, chainWithin, found, root]

theorem chain_of_back {references : References} (ordered : references.Ordered)
    {index back : Nat} {reference : Reference}
    (found : references.get? index = some reference) (refers : reference.back? = some back) :
    references.chain index = reference :: references.chain back := by
  have earlier := ordered index reference back found refers
  have unfolded : references.chainWithin (index + 1) index =
      reference :: references.chainWithin index back := by
    simp [chainWithin, found, refers]
  rw [chain, unfolded, chain, chainWithin_eq ordered index (back + 1) back earlier (by omega)]

end GraphQuery.References
