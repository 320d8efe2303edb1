import GraphQuery.Proofs.Conformance
import GraphQuery.Proofs.Requirement.Template
import GraphQuery.Proofs.Ty.Unfolding

/-!
Registries whose records are given further fields. Whatever a type resolves to, it resolves to the
same with more fields there, so what fits a parameter goes on fitting it and links stay links.
-/

namespace GraphQuery

namespace Ty

inductive Widens : Ty → Ty → Prop
  | refl {ty} : Widens ty ty
  | record {fields others} : (∀ name ty, Entries.find? fields name = some ty →
      Entries.find? others name = some ty) → Widens (.record fields) (.record others)

mutual

def isNameless : Ty → Bool
  | optional item => isNameless item
  | sequence item => isNameless item
  | mapping key value => isNameless key && isNameless value
  | record fields => areNameless fields
  | named _ _ => false
  | _ => true

def areNameless : List (String × Ty) → Bool
  | [] => true
  | (_, ty) :: rest => isNameless ty && areNameless rest

end

theorem isNameless_of_mem {fields : List (String × Ty)} (nameless : areNameless fields = true)
    {name : String} {ty : Ty} (member : (name, ty) ∈ fields) : ty.isNameless = true := by
  induction fields with
  | nil => simp at member
  | cons first rest ih =>
      obtain ⟨other, firstTy⟩ := first
      simp only [areNameless, Bool.and_eq_true] at nameless
      rcases List.mem_cons.mp member with same | member
      · simp only [Prod.mk.injEq] at same
        exact same.2 ▸ nameless.1
      · exact ih nameless.2 member

end Ty

namespace Registry

def Widens (types wider : Registry) : Prop :=
  List.Forall₂ (fun entry other => entry.1 = other.1 ∧ entry.2.Widens other.2)
    types.types wider.types

variable {types wider : Registry} {ty source sourceToo target : Ty}

theorem resolve_nameless (nameless : ty.isNameless = true) : types.resolve ty = ty :=
  resolve_eq_self fun kind name same => by simp [same, Ty.isNameless] at nameless

namespace Widens

theorem next? (widens : types.Widens wider) (ty : Ty) :
    Option.Rel Ty.Widens (types.next? ty) (wider.next? ty) := by
  cases ty with
  | named kind name =>
      have known : Option.Rel Ty.Widens (types.get? name) (wider.get? name) :=
        lookup_rel widens name
      simp only [Registry.next?]
      generalize types.get? name = found at known
      generalize wider.get? name = foundToo at known
      cases known with
      | none => exact .none
      | some wide =>
          cases wide with
          | record more => exact .some (.record more)
          | refl =>
              simp only [Option.filter_some]
              split
              · exact .some .refl
              · exact .none
  | _ => exact .none

theorem resolveWithin (widens : types.Widens wider) (steps : Nat)
    (wide : source.Widens sourceToo) :
    (types.resolveWithin steps source).Widens (wider.resolveWithin steps sourceToo) := by
  induction steps generalizing source sourceToo with
  | zero => exact wide
  | succ steps ih =>
      cases wide with
      | record more => exact .record more
      | refl =>
          have onward := widens.next? source
          rw [Registry.resolveWithin, Registry.resolveWithin]
          generalize types.next? source = next at onward
          generalize wider.next? source = nextToo at onward
          cases onward with
          | none => exact .refl
          | some wide => exact ih wide

theorem resolve (widens : types.Widens wider) (wide : source.Widens sourceToo) :
    (types.resolve source).Widens (wider.resolve sourceToo) := by
  rw [Registry.resolve, Registry.resolve, List.Forall₂.length_eq widens]
  exact widens.resolveWithin _ wide

/-! Links stay links -/

theorem resolveSome (widens : types.Widens wider) (ty : Ty) :
    (types.resolveSome ty).Widens (wider.resolveSome ty) := by
  have wide : (types.resolve ty).Widens (wider.resolve ty) := widens.resolve .refl
  unfold Registry.resolveSome
  generalize types.resolve ty = found at wide
  generalize wider.resolve ty = foundToo at wide
  cases wide with
  | record more => exact .record more
  | refl =>
      cases found with
      | optional item => exact widens.resolve .refl
      | _ => exact .refl

theorem isObject_eq (widens : types.Widens wider) (ty : Ty) :
    wider.isObject ty = types.isObject ty := by
  have wide := widens.resolveSome ty
  unfold Registry.isObject
  generalize types.resolveSome ty = found at wide
  generalize wider.resolveSome ty = foundToo at wide
  cases wide with
  | _ => rfl

theorem isLink_eq (widens : types.Widens wider) (ty : Ty) :
    wider.isLink ty = types.isLink ty := by
  have wide := widens.resolveSome ty
  unfold Registry.isLink
  generalize types.resolveSome ty = found at wide
  generalize wider.resolveSome ty = foundToo at wide
  cases wide with
  | record more => rfl
  | refl =>
      cases found with
      | _ => exact widens.isObject_eq _

/-! What fits a parameter goes on fitting it -/

theorem checkFields {check checkToo : Ty → Ty → Except Mismatch Unit}
    {fields others expected : Entries Ty} (more : ∀ name ty, Entries.find? fields name = some ty →
      Entries.find? others name = some ty)
    (each : ∀ name source target, (name, target) ∈ expected → check source target = .ok () →
      checkToo source target = .ok ())
    (passed : Registry.checkFields check fields expected = .ok ()) :
    Registry.checkFields checkToo others expected = .ok () := by
  induction expected with
  | nil => rfl
  | cons entry rest ih =>
      obtain ⟨name, target⟩ := entry
      obtain ⟨source, found, checked⟩ := checkFields_ok passed List.mem_cons_self
      simp only [Registry.checkFields, found, checked, ok_bind] at passed
      simp only [Registry.checkFields, more name source found,
        each name source target List.mem_cons_self checked, ok_bind]
      exact ih (fun other source target inside =>
        each other source target (List.mem_cons_of_mem _ inside)) passed

/-- The target holds no names, so that its size bounds how deep the comparison goes. -/
theorem checkWithin (widens : types.Widens wider) {depth depthToo : Nat}
    (wide : source.Widens sourceToo) (nameless : target.isNameless = true)
    (deep : target.size ≤ depthToo)
    (passed : types.checkWithin depth source target = .ok ()) :
    wider.checkWithin depthToo sourceToo target = .ok () := by
  induction depth generalizing depthToo source sourceToo target with
  | zero => simp [Registry.checkWithin] at passed
  | succ depth ih =>
      cases depthToo with
      | zero => cases target <;> simp [Ty.size] at deep
      | succ depthToo =>
          have resolved := widens.resolve wide
          simp only [Registry.checkWithin, resolve_nameless nameless] at passed ⊢
          generalize types.resolve source = found at passed resolved
          generalize wider.resolve sourceToo = foundToo at resolved
          cases target with
          | any => cases foundToo <;> rfl
          | optional item =>
              have shallower : item.size ≤ depthToo := Nat.le_of_succ_le_succ deep
              cases resolved with
              | record more => exact ih (.record more) nameless shallower passed
              | refl =>
                  cases found with
                  | _ => exact ih .refl nameless shallower passed
          | record expected =>
              have each : ∀ name source inner, (name, inner) ∈ expected →
                  types.checkWithin depth source inner = .ok () →
                  wider.checkWithin depthToo source inner = .ok () := by
                intro name source inner inside
                have shallower : inner.size ≤ Ty.sizeOfFields expected :=
                  Ty.size_le_of_mem_values (List.mem_map.mpr ⟨_, inside, rfl⟩)
                rw [Ty.size] at deep
                exact ih .refl (Ty.isNameless_of_mem nameless inside) (by omega)
              cases resolved with
              | record more => exact checkFields more each passed
              | refl =>
                  cases found with
                  | record fields => exact checkFields (fun _ _ kept => kept) each passed
                  | _ => cases passed
          | sequence item =>
              cases resolved with
              | record more => cases passed
              | refl =>
                  cases found with
                  | sequence inner =>
                      exact ih .refl nameless (Nat.le_of_succ_le_succ deep) passed
                  | _ => cases passed
          | mapping key value =>
              rw [Ty.size] at deep
              rw [Ty.isNameless, Bool.and_eq_true] at nameless
              cases resolved with
              | record more => cases passed
              | refl =>
                  cases found with
                  | mapping sourceKey sourceValue =>
                      obtain ⟨_, passedKey, passedValue⟩ := bind_eq_ok_iff.mp passed
                      exact bind_eq_ok_iff.mpr ⟨_, ih .refl nameless.1 (by omega) passedKey,
                        ih .refl nameless.2 (by omega) passedValue⟩
                  | _ => cases passed
          | named kind name => simp [Ty.isNameless] at nameless
          | _ =>
              cases resolved with
              | record more => cases passed
              | refl =>
                  cases found with
                  | _ => exact passed

theorem checkType (widens : types.Widens wider) (wide : source.Widens sourceToo)
    (nameless : target.isNameless = true) (passed : types.checkType source target = .ok ()) :
    wider.checkType sourceToo target = .ok () := by
  refine widens.checkWithin wide nameless ?_ passed
  have whole : target.size ≤ (wider.size + sourceToo.size + target.size) ^ 2 :=
    le_trans (by omega) (Nat.le_self_pow (by omega) _)
  exact Nat.le_succ_of_le whole

end Widens

end Registry

end GraphQuery
