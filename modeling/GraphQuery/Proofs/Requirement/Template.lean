import GraphQuery.Proofs.Query.Selects
import GraphQuery.Proofs.Ty.Comparison
import GraphQuery.Proofs.Ty.Walks

/-!
Templates of parameters: what one asks for is there in every type that fits the parameter.
-/

namespace GraphQuery

namespace Ty

theorem mem_templateSelections {fields : List (String × Ty)} {selection : Selection}
    (member : selection ∈ templateSelections fields) :
    ∃ name ty, (name, ty) ∈ fields ∧ selection = .ofTemplate name (template? ty) := by
  induction fields with
  | nil => simp [templateSelections] at member
  | cons field rest ih =>
      obtain ⟨name, ty⟩ := field
      rcases List.mem_cons.mp member with rfl | member
      · exact ⟨name, ty, by simp, rfl⟩
      · obtain ⟨other, otherTy, inside, same⟩ := ih member
        exact ⟨other, otherTy, List.mem_cons_of_mem _ inside, same⟩

mutual

theorem plain_template : ∀ (ty : Ty) (query : Query), ty.template? = some query → query.Plain
  | record fields, query, asked => by
      simp only [template?, Option.some.injEq] at asked
      subst asked
      refine .mk ?_ (plain_templateSelections fields)
      intro selection member
      obtain ⟨name, ty, _, rfl⟩ := mem_templateSelections member
      cases ty.template? <;> rfl
  | sequence item, query, asked => plain_template item query asked
  | optional item, query, asked => plain_template item query asked
  | any, _, asked | boolean, _, asked | string, _, asked | integer, _, asked | float, _, asked
  | mapping _ _, _, asked | named _ _, _, asked => by simp [template?] at asked

theorem plain_templateSelections : ∀ (fields : List (String × Ty)) (head : Head) (inner : Query),
    .link head inner ∈ templateSelections fields → inner.Plain
  | [], _, _, member => by simp [templateSelections] at member
  | (name, ty) :: rest, head, inner, member => by
      rcases List.mem_cons.mp member with same | member
      · cases asked : ty.template? with
        | none => simp [Selection.ofTemplate, asked] at same
        | some query =>
            simp only [Selection.ofTemplate, asked, Selection.link.injEq] at same
            exact plain_template ty inner (same.2 ▸ asked)
      · exact plain_templateSelections rest head inner member

end

end Ty

namespace Registry

variable {types : Registry}

theorem Reaches.ofResolved {ty : Ty} {fields : List (String × Ty)}
    (reaches : types.Reaches (types.resolve ty) fields) : types.Reaches ty fields := by
  rcases types.resolve_resolve ty with same | ⟨_, _, _, again⟩
  · cases reaches with
    | record shape => exact .record (same ▸ shape)
    | optional shape inner => exact .optional (same ▸ shape) inner
    | sequence shape inner => exact .sequence (same ▸ shape) inner
  · -- a name in a circle reaches no record
    cases reaches with
    | record shape | optional shape _ | sequence shape _ => simp [again] at shape

theorem checkWithin_template (depth : Nat) {source target : Ty}
    {query : Query} (passed : types.checkWithin depth source target = .ok ())
    (asked : target.template? = some query) :
    ∃ fields, types.Reaches source fields ∧ ∀ selection ∈ query.selections, ∃ field inner less,
      Entries.find? fields selection.name = some field ∧
        selection = .ofTemplate selection.name inner.template? ∧
        types.checkWithin less field inner = .ok () := by
  induction depth generalizing source target query with
  | zero => simp [checkWithin] at passed
  | succ depth ih =>
      cases target with
      | record expected =>
          simp only [Ty.template?, Option.some.injEq] at asked
          subst asked
          simp only [checkWithin, resolve_record] at passed
          cases shape : types.resolve source with
          | record fields =>
              simp only [shape] at passed
              refine ⟨fields, .record shape, ?_⟩
              intro selection member
              obtain ⟨name, inner, inside, same⟩ := Ty.mem_templateSelections member
              obtain ⟨field, found, checked⟩ := checkFields_ok passed inside
              have named : selection.name = name := by
                rw [same]
                cases inner.template? <;> rfl
              exact ⟨field, inner, depth, named ▸ found, named ▸ same, checked⟩
          | _ => simp [shape] at passed
      | sequence item =>
          simp only [checkWithin, resolve_sequence] at passed
          cases shape : types.resolve source with
          | sequence inner =>
              simp only [shape] at passed
              obtain ⟨fields, reaches, each⟩ := ih passed asked
              exact ⟨fields, .sequence shape reaches, each⟩
          | _ => simp [shape] at passed
      | optional item =>
          simp only [checkWithin, resolve_optional] at passed
          cases shape : types.resolve source with
          | optional inner =>
              simp only [shape] at passed
              obtain ⟨fields, reaches, each⟩ := ih passed asked
              exact ⟨fields, .optional shape reaches, each⟩
          | _ =>
              simp only [shape] at passed
              rw [← shape] at passed
              obtain ⟨fields, reaches, each⟩ := ih passed asked
              exact ⟨fields, reaches.ofResolved, each⟩
      | _ => simp [Ty.template?] at asked

/-- What a template selects leads to a type, which holds objects if a link is selected. -/
theorem walks_of_template {query : Query} {link : Bool}
    {path : List String} (selects : query.Selects link path) {depth : Nat} {source target : Ty}
    (passed : types.checkWithin depth source target = .ok ())
    (asked : target.template? = some query) :
    ∃ last, types.Walks source path last ∧ (link = true → types.HoldsObjects last) := by
  induction selects generalizing depth source target with
  | @here query selection member kind =>
      obtain ⟨fields, reaches, each⟩ := checkWithin_template depth passed asked
      obtain ⟨field, inner, less, found, same, checked⟩ := each selection member
      refine ⟨field, .cons reaches found .nil, ?_⟩
      rintro rfl
      cases askedInner : inner.template? with
      | none =>
          rw [same, askedInner] at kind
          simp [Selection.ofTemplate, Selection.isLink] at kind
      | some below =>
          obtain ⟨_, reachesInner, _⟩ := checkWithin_template less checked askedInner
          exact reachesInner.holdsObjects
  | @under query head inner path member _ ih =>
      obtain ⟨fields, reaches, each⟩ := checkWithin_template depth passed asked
      obtain ⟨field, target, less, found, same, checked⟩ := each _ member
      cases askedInner : target.template? with
      | none => simp [Selection.ofTemplate, askedInner] at same
      | some below =>
          simp only [Selection.ofTemplate, askedInner, Selection.link.injEq] at same
          obtain ⟨last, walks, holds⟩ := ih checked (same.2 ▸ askedInner)
          exact ⟨last, .cons reaches found walks, holds⟩

end Registry

end GraphQuery
