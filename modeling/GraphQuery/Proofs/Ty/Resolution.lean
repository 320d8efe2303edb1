import GraphQuery.Graph.Basic
import GraphQuery.Ty.Registry
import Mathlib.Data.Finset.Card
import Mathlib.Data.Finset.Range

/-!
Resolving names. What is resolved is resolved for good, but for names that run in a circle. The
types of a graph are records, so there a name leads to a record at once or nowhere.
-/

namespace GraphQuery

namespace Registry

variable {types : Registry} {ty : Ty}

theorem resolve_of_next? (last : types.next? ty = none) : types.resolve ty = ty := by
  simp [resolve, resolveWithin, last]

theorem resolve_eq_self (unnamed : ∀ kind name, ty ≠ .named kind name) :
    types.resolve ty = ty := by
  refine resolve_of_next? ?_
  cases ty with
  | named kind name => exact (unnamed kind name rfl).elim
  | _ => rfl

@[simp] theorem resolve_optional (item : Ty) : types.resolve (.optional item) = .optional item :=
  resolve_eq_self (by simp)

@[simp] theorem resolve_sequence (item : Ty) : types.resolve (.sequence item) = .sequence item :=
  resolve_eq_self (by simp)

@[simp] theorem resolve_record (fields : List (String × Ty)) :
    types.resolve (.record fields) = .record fields :=
  resolve_eq_self (by simp)

/-! Names that run in a circle -/

def follow (types : Registry) (ty : Ty) : Nat → Option Ty
  | 0 => some ty
  | steps + 1 => (types.follow ty steps).bind types.next?

theorem follow_add (steps more : Nat) :
    types.follow ty (steps + more) = (types.follow ty steps).bind (types.follow · more) := by
  induction more with
  | zero => cases types.follow ty steps <;> rfl
  | succ more ih =>
      rw [← Nat.add_assoc, follow, ih]
      cases types.follow ty steps <;> rfl

theorem next?_eq_some {found : Ty} (next : types.next? ty = some found) :
    ∃ kind name, ty = .named kind name ∧ types.get? name = some found := by
  cases ty with
  | named kind name => exact ⟨kind, name, rfl, (Option.filter_eq_some_iff.mp next).1⟩
  | _ => simp [next?] at next

theorem exists_follow_resolveWithin (types : Registry) (steps : Nat) (ty : Ty) :
    ∃ taken, types.follow ty taken = some (types.resolveWithin steps ty) ∧
      (taken = steps ∨ types.next? (types.resolveWithin steps ty) = none) := by
  induction steps generalizing ty with
  | zero => exact ⟨0, rfl, .inl rfl⟩
  | succ steps ih =>
      rw [resolveWithin]
      split
      · rename_i found next
        obtain ⟨taken, led, last⟩ := ih found
        refine ⟨taken + 1, ?_, last.imp_left fun same => by rw [same]⟩
        rw [Nat.add_comm, follow_add, follow, follow, Option.bind_some, next]
        exact led
      · rename_i next
        exact ⟨0, rfl, .inr next⟩

theorem follow_of_le {steps earlier : Nat} (lower : earlier ≤ steps)
    (far : (types.follow ty steps).isSome = true) : (types.follow ty earlier).isSome = true := by
  obtain ⟨more, rfl⟩ := Nat.exists_eq_add_of_le lower
  rw [follow_add] at far
  cases led : types.follow ty earlier with
  | none => simp [led] at far
  | some found => rfl

theorem follow_succ_of_far {steps earlier : Nat} (lower : earlier < steps)
    (far : (types.follow ty steps).isSome = true) :
    ∃ kind name, types.follow ty earlier = some (.named kind name) ∧
      types.follow ty (earlier + 1) = types.get? name ∧ (types.get? name).isSome = true := by
  have next := follow_of_le (Nat.succ_le_of_lt lower) far
  rw [follow] at next ⊢
  cases led : types.follow ty earlier with
  | none => simp [led] at next
  | some found =>
      rw [led, Option.bind_some] at next
      obtain ⟨further, leads⟩ := Option.isSome_iff_exists.mp next
      obtain ⟨kind, name, rfl, known⟩ := next?_eq_some leads
      exact ⟨kind, name, rfl, leads.trans known.symm, by rw [known]; rfl⟩

/-- A way of more steps than there are entries comes to one name twice. -/
theorem exists_repeated {steps : Nat} (long : types.types.length < steps)
    (far : (types.follow ty steps).isSome = true) : ∃ earlier later, earlier < later ∧
      later < steps ∧ types.follow ty (earlier + 1) = types.follow ty (later + 1) := by
  have each : ∀ index, ∃ name, index < steps → types.follow ty (index + 1) = types.get? name ∧
      name ∈ types.types.keys := by
    intro index
    by_cases lower : index < steps
    · obtain ⟨_, name, _, leads, known⟩ := follow_succ_of_far lower far
      obtain ⟨found, known⟩ := Option.isSome_iff_exists.mp known
      exact ⟨name, fun _ => ⟨leads, Entries.mem_keys_of_find? known⟩⟩
    · exact ⟨"", fun lowerToo => (lower lowerToo).elim⟩
  choose name leads using each
  have fewer : types.types.keys.toFinset.card < (Finset.range steps).card := by
    have bound := types.types.keys.toFinset_card_le
    rw [Entries.keys, List.length_map] at bound
    rw [Finset.card_range]
    exact Nat.lt_of_le_of_lt bound long
  obtain ⟨index, below, other, belowToo, different, same⟩ :=
    Finset.exists_ne_map_eq_of_card_lt_of_maps_to fewer fun index below =>
      List.mem_toFinset.mpr (leads index (Finset.mem_range.mp below)).2
  rw [Finset.mem_range] at below belowToo
  have equal : types.follow ty (index + 1) = types.follow ty (other + 1) := by
    rw [(leads index below).1, (leads other belowToo).1, same]
  rcases Nat.lt_or_gt_of_ne different with lower | lower
  · exact ⟨index, other, lower, belowToo, equal⟩
  · exact ⟨other, index, lower, below, equal.symm⟩

theorem follow_of_long {steps : Nat} (long : types.types.length < steps)
    (far : (types.follow ty steps).isSome = true) (more : Nat) :
    (types.follow ty more).isSome = true := by
  obtain ⟨earlier, later, lower, below, same⟩ := exists_repeated long far
  -- what is further on than the second time stands as far behind the first time
  induction more using Nat.strongRecOn with
  | ind more ih =>
      by_cases near : more ≤ steps
      · exact follow_of_le near far
      · have back := ih (earlier + 1 + (more - (later + 1))) (by omega)
        have whole : more = later + 1 + (more - (later + 1)) := by omega
        rw [follow_add, same, ← follow_add, ← whole] at back
        exact back

theorem resolve_cases (ty : Ty) : types.next? (types.resolve ty) = none ∨
    ∀ more, (types.follow (types.resolve ty) more).isSome = true := by
  obtain ⟨taken, led, rfl | last⟩ :=
    types.exists_follow_resolveWithin (types.types.length + 1) ty
  · refine .inr fun more => ?_
    have endless := follow_of_long (Nat.lt_succ_self _) (by rw [led]; rfl)
      (types.types.length + 1 + more)
    rw [follow_add, led] at endless
    exact endless
  · exact .inl last

/-- What is resolved is resolved for good, unless it is a name in a circle, which stays a name. -/
theorem resolve_resolve (ty : Ty) : types.resolve (types.resolve ty) = types.resolve ty ∨
    (∃ kind name, types.resolve ty = .named kind name) ∧
      ∃ kind name, types.resolve (types.resolve ty) = .named kind name := by
  rcases types.resolve_cases ty with last | endless
  · exact .inl (resolve_of_next? last)
  · refine .inr ⟨?_, ?_⟩
    · obtain ⟨kind, name, led, _⟩ := follow_succ_of_far Nat.zero_lt_one (endless 1)
      exact ⟨kind, name, Option.some.inj led⟩
    · obtain ⟨taken, led, _⟩ :=
        types.exists_follow_resolveWithin (types.types.length + 1) (types.resolve ty)
      obtain ⟨kind, name, ledToo, _⟩ := follow_succ_of_far (Nat.lt_succ_self taken) (endless _)
      exact ⟨kind, name, Option.some.inj (led.symm.trans ledToo)⟩

/-! Types of a graph -/

def HoldsRecords (types : Registry) : Prop :=
  ∀ name ty, types.get? name = some ty → ∃ fields, ty = .record fields

theorem resolve_named (kind : NameKind) {name : String} {fields : List (String × Ty)}
    (known : types.get? name = some (.record fields)) :
    types.resolve (.named kind name) = .record fields := by
  have next : types.next? (.named kind name) = some (.record fields) := by
    simp only [next?, known]
    rfl
  have found : types.resolve (.named kind name) =
      types.resolveWithin types.types.length (.record fields) := by
    simp [resolve, resolveWithin, next]
  rw [found]
  cases types.types.length with
  | zero => rfl
  | succ steps => simp [resolveWithin, next?]

theorem HoldsRecords.insert (records : types.HoldsRecords) (name : String)
    (fields : List (String × Ty)) : (types.insert name (.record fields)).HoldsRecords := by
  intro sought ty found
  simp only [get?, Registry.insert, Entries.find?_insert] at found
  split at found
  · exact ⟨fields, (Option.some.inj found).symm⟩
  · exact records sought ty found

theorem HoldsRecords.foldl {α : Type} {name : α → String} {fields : α → Entries FieldDef}
    (entries : List α) (records : types.HoldsRecords) :
    (entries.foldl (fun registry entry =>
      registry.insert (name entry) (Graph.recordOf (fields entry))) types).HoldsRecords := by
  induction entries generalizing types with
  | nil => exact records
  | cons entry rest ih => exact ih (records.insert (name entry) _)

end Registry

theorem Graph.types_holdsRecords (graph : Graph) : graph.types.HoldsRecords := by
  have empty : Registry.empty.HoldsRecords := by
    intro name ty found
    simp [Registry.get?, Registry.empty] at found
  exact .foldl graph.nodes (.foldl graph.interfaces empty)

end GraphQuery
