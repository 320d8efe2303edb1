import GraphQuery.Ty.Registry
import GraphQuery.Value.Basic
import Mathlib.Data.List.Forall2

/-!
Values that conform to types. What conforms to a name that resolves to nothing else is left open.
-/

namespace GraphQuery

/-- Lists of named things that correspond one by one find corresponding things under a name. -/
theorem lookup_rel {α β : Type} {related : α → β → Prop} {entries : List (String × α)}
    {others : List (String × β)}
    (aligned : List.Forall₂ (fun entry other => entry.1 = other.1 ∧ related entry.2 other.2)
      entries others) (name : String) :
    Option.Rel related (entries.lookup name) (others.lookup name) := by
  induction aligned with
  | nil => exact .none
  | @cons entry other _ _ first _ ih =>
      obtain ⟨key, value⟩ := entry
      obtain ⟨otherKey, otherValue⟩ := other
      obtain ⟨same, held⟩ := first
      simp only at same
      subst same
      cases here : name == key with
      | true =>
          simp only [List.lookup_cons, here]
          exact .some held
      | false =>
          simp only [List.lookup_cons, here]
          exact ih

namespace Registry

inductive Conforms (types : Registry) (unresolved : NameKind → String → Value → Prop) :
    Ty → Value → Prop
  | any {ty value} : types.resolve ty = .any → Conforms types unresolved ty value
  | boolean {ty truth} : types.resolve ty = .boolean →
      Conforms types unresolved ty (.boolean truth)
  | string {ty text} : types.resolve ty = .string → Conforms types unresolved ty (.string text)
  | integer {ty number} : types.resolve ty = .integer →
      Conforms types unresolved ty (.integer number)
  | float {ty number} : types.resolve ty = .float → Conforms types unresolved ty (.float number)
  | null {ty item} : types.resolve ty = .optional item → Conforms types unresolved ty .null
  | present {ty item value} : types.resolve ty = .optional item →
      Conforms types unresolved item value → Conforms types unresolved ty value
  | sequence {ty item values} : types.resolve ty = .sequence item →
      (∀ value ∈ values, Conforms types unresolved item value) →
      Conforms types unresolved ty (.list values)
  | mapping {ty key item entries} : types.resolve ty = .mapping key item →
      (∀ name value, Entries.find? entries name = some value →
        Conforms types unresolved item value) →
      Conforms types unresolved ty (.object entries)
  | record {ty fields entries} : types.resolve ty = .record fields →
      (∀ name field, Entries.find? fields name = some field → Entries.contains entries name) →
      (∀ name field value, Entries.find? fields name = some field →
        Entries.find? entries name = some value → Conforms types unresolved field value) →
      Conforms types unresolved ty (.object entries)
  | named {ty kind name value} : types.resolve ty = .named kind name →
      unresolved kind name value → Conforms types unresolved ty value

namespace Conforms

variable {types : Registry} {unresolved : NameKind → String → Value → Prop} {ty : Ty}
  {value : Value}

theorem get? (conforms : Conforms types unresolved ty value) {fields : List (String × Ty)}
    (record : types.resolve ty = .record fields) {name : String} {field : Ty}
    (declared : Entries.find? fields name = some field) :
    ∃ found, value.get? name = some found ∧ Conforms types unresolved field found := by
  cases conforms with
  | record same present each =>
      rw [record, Ty.record.injEq] at same
      subst same
      obtain ⟨found, lookup⟩ := Option.isSome_iff_exists.mp (present name field declared)
      exact ⟨found, by simpa [Value.get?, Value.entries?] using lookup,
        each name field found declared lookup⟩
  | any other | boolean other | string other | integer other | float other | null other
  | present other | sequence other | mapping other | named other => simp [record] at other

theorem items (conforms : Conforms types unresolved ty value) {item : Ty}
    (sequence : types.resolve ty = .sequence item) :
    ∃ values, value = .list values ∧ ∀ one ∈ values, Conforms types unresolved item one := by
  cases conforms with
  | sequence same each =>
      rw [sequence, Ty.sequence.injEq] at same
      subst same
      exact ⟨_, rfl, each⟩
  | any other | boolean other | string other | integer other | float other | null other
  | present other | mapping other | record other | named other => simp [sequence] at other

theorem item (conforms : Conforms types unresolved ty value) {item : Ty}
    (optional : types.resolve ty = .optional item) (notNull : value ≠ .null) :
    Conforms types unresolved item value := by
  cases conforms with
  | null => exact (notNull rfl).elim
  | present same inner =>
      rw [optional, Ty.optional.injEq] at same
      exact same ▸ inner
  | any other | boolean other | string other | integer other | float other | sequence other
  | mapping other | record other | named other => simp [optional] at other

/-- An object conforms to a record whose fields are its entries in order. -/
theorem ofAligned {fields : List (String × Ty)} {entries : List (String × Value)}
    (record : types.resolve ty = .record fields)
    (aligned : List.Forall₂ (fun field entry => field.1 = entry.1 ∧
      Conforms types unresolved field.2 entry.2) fields entries) :
    Conforms types unresolved ty (.object entries) := by
  refine .record record ?_ ?_
  · intro name field declared
    have related := lookup_rel aligned name
    simp only [Entries.find?] at declared
    rw [declared] at related
    cases found : List.lookup name entries with
    | none => simp [found] at related
    | some value => simp [Entries.contains, Entries.find?, found]
  · intro name field value declared found
    have related := lookup_rel aligned name
    simp only [Entries.find?] at declared found
    rw [declared, found] at related
    cases related with
    | some conforms => exact conforms

end Conforms

end Registry

end GraphQuery
