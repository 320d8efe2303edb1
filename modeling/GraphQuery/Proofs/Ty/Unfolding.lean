import GraphQuery.Proofs.Ty.Resolution
import Mathlib.Algebra.GroupWithZero.Nat
import Mathlib.Algebra.Order.BigOperators.Group.List
import Mathlib.Algebra.Order.Group.Nat
import Mathlib.Data.Fintype.Card
import Mathlib.Data.Set.Finite.List
import Mathlib.Logic.Relation
import Mathlib.Order.WellFounded

/-!
What a type unfolds to: a name to what it leads to, and any other type to the types in it. All that
a type unfolds to is written in it or in the registry, so where no type unfolds to itself every type
unfolds to an end.
-/

namespace GraphQuery

namespace Ty

def parts : Ty → List Ty
  | optional item => [item]
  | sequence item => [item]
  | mapping key value => [key, value]
  | record fields => Entries.values fields
  | _ => []

mutual

def written : Ty → List Ty
  | optional item => optional item :: written item
  | sequence item => sequence item :: written item
  | mapping key value => mapping key value :: (written key ++ written value)
  | record fields => record fields :: writtenInFields fields
  | ty => [ty]

def writtenInFields : List (String × Ty) → List Ty
  | [] => []
  | (_, ty) :: rest => written ty ++ writtenInFields rest

end

variable {ty part inner : Ty} {fields : List (String × Ty)}

theorem size_le_of_mem_values (member : part ∈ Entries.values fields) :
    part.size ≤ sizeOfFields fields := by
  induction fields with
  | nil => cases member
  | cons field rest ih =>
      obtain ⟨name, first⟩ := field
      rw [sizeOfFields]
      rcases List.mem_cons.mp member with rfl | member
      · exact Nat.le_add_right _ _
      · exact Nat.le_add_left_of_le (ih member)

theorem size_lt_of_mem_parts (member : part ∈ ty.parts) : part.size < ty.size := by
  cases ty with
  | optional item | sequence item =>
      obtain rfl := List.mem_singleton.mp member
      exact Nat.lt_succ_self _
  | mapping key value =>
      simp only [parts, List.mem_cons, List.not_mem_nil, or_false] at member
      rw [size]
      rcases member with rfl | rfl <;> omega
  | record fields => exact Nat.lt_succ_of_le (size_le_of_mem_values member)
  | _ => cases member

/-- Induction over the types in a type. -/
theorem induct {motive : Ty → Prop}
    (step : ∀ ty : Ty, (∀ part ∈ ty.parts, motive part) → motive ty) (ty : Ty) : motive ty := by
  induction size : ty.size using Nat.strongRecOn generalizing ty with
  | ind size ih =>
      subst size
      exact step ty fun part member => ih _ (size_lt_of_mem_parts member) part rfl

theorem writtenInFields_eq (fields : List (String × Ty)) :
    writtenInFields fields = (Entries.values fields).flatMap written := by
  induction fields with
  | nil => rfl
  | cons field rest ih =>
      obtain ⟨name, ty⟩ := field
      rw [writtenInFields, ih]
      rfl

theorem written_eq (ty : Ty) : ty.written = ty :: ty.parts.flatMap written := by
  cases ty with
  | optional item | sequence item => simp [written, parts]
  | mapping key value => simp [written, parts]
  | record fields => rw [written, writtenInFields_eq]; rfl
  | _ => rfl

theorem mem_written_self (ty : Ty) : ty ∈ ty.written :=
  written_eq ty ▸ List.mem_cons_self

theorem mem_written_iff :
    inner ∈ ty.written ↔ inner = ty ∨ ∃ part ∈ ty.parts, inner ∈ part.written := by
  rw [written_eq, List.mem_cons, List.mem_flatMap]

theorem mem_written_of_part (written : inner ∈ ty.written) (member : part ∈ inner.parts) :
    part ∈ ty.written := by
  induction ty using induct with
  | step ty ih =>
      rcases mem_written_iff.mp written with rfl | ⟨between, inside, written⟩
      · exact mem_written_iff.mpr (.inr ⟨part, member, mem_written_self part⟩)
      · exact mem_written_iff.mpr (.inr ⟨between, inside, ih between inside written⟩)

mutual

theorem length_written : (ty : Ty) → ty.written.length = ty.size
  | optional item => congrArg Nat.succ (length_written item)
  | sequence item => congrArg Nat.succ (length_written item)
  | mapping key value => by
      rw [written, size, List.length_cons, List.length_append, length_written key,
        length_written value]
  | record fields => congrArg Nat.succ (length_writtenInFields fields)
  | any | boolean | string | integer | float | named _ _ => rfl

theorem length_writtenInFields :
    (fields : List (String × Ty)) → (writtenInFields fields).length = sizeOfFields fields
  | [] => rfl
  | (_, ty) :: rest => by
      rw [writtenInFields, sizeOfFields, List.length_append, length_written ty,
        length_writtenInFields rest]

end

end Ty

namespace Registry

variable {types : Registry} {ty whole part : Ty}

def written (types : Registry) (given : List Ty) : List Ty :=
  given.flatMap Ty.written ++ Ty.writtenInFields types.types

theorem mem_written {given : List Ty} (member : ty ∈ given) : ty ∈ types.written given :=
  List.mem_append_left _ (List.mem_flatMap.mpr ⟨ty, member, ty.mem_written_self⟩)

theorem length_written (source target : Ty) :
    (types.written [source, target]).length = types.size + source.size + target.size := by
  rw [written, List.length_append, List.length_flatMap, Ty.length_writtenInFields, size]
  simp only [List.map_cons, List.map_nil, List.sum_cons, List.sum_nil, Ty.length_written]
  omega

def Unfolds (types : Registry) (whole part : Ty) : Prop :=
  types.next? whole = some part ∨ part ∈ whole.parts

def Acyclic (types : Registry) : Prop :=
  ∀ ty, ¬ Relation.TransGen types.Unfolds ty ty

/-- Names are acyclic that can be made heavier than all that is written in what they lead to. -/
theorem acyclic_of_weight {weight : Ty → Nat} (positive : ∀ ty, 0 < weight ty)
    (heavier : ∀ whole found, types.next? whole = some found →
      (found.written.map weight).sum < weight whole) : types.Acyclic := by
  have lighter : ∀ whole part, types.Unfolds whole part →
      (part.written.map weight).sum < (whole.written.map weight).sum := by
    intro whole part unfolds
    rcases unfolds with next | member
    · have lighter := heavier whole part next
      obtain ⟨kind, name, rfl, _⟩ := next?_eq_some next
      exact lighter
    · have inside : part.written.Sublist (whole.parts.flatMap Ty.written) := by
        simpa using (List.singleton_sublist.mpr member).flatMap Ty.written
      have bound := (inside.map weight).sum_le_sum fun _ _ => Nat.zero_le _
      rw [Ty.written_eq whole, List.map_cons, List.sum_cons]
      exact Nat.lt_of_le_of_lt bound (Nat.lt_add_of_pos_left (positive whole))
  have below : ∀ whole part, Relation.TransGen types.Unfolds whole part →
      (part.written.map weight).sum < (whole.written.map weight).sum := by
    intro whole part unfolds
    induction unfolds with
    | single step => exact lighter _ _ step
    | tail _ step ih => exact (lighter _ _ step).trans ih
  exact fun ty unfolds => Nat.lt_irrefl _ (below ty ty unfolds)

def Closed (types : Registry) (list : List Ty) : Prop :=
  ∀ whole ∈ list, ∀ part, types.Unfolds whole part → part ∈ list

theorem closed_written (types : Registry) (given : List Ty) :
    types.Closed (types.written given) := by
  intro whole member part unfolds
  rw [written, Ty.writtenInFields_eq, List.mem_append, List.mem_flatMap, List.mem_flatMap] at *
  rcases unfolds with next | inside
  · obtain ⟨kind, name, rfl, known⟩ := next?_eq_some next
    exact .inr ⟨part, List.mem_map.mpr ⟨_, Entries.mem_of_find? known, rfl⟩,
      part.mem_written_self⟩
  · refine member.imp ?_ ?_ <;> rintro ⟨ty, listed, written⟩
    · exact ⟨ty, listed, Ty.mem_written_of_part written inside⟩
    · exact ⟨ty, listed, Ty.mem_written_of_part written inside⟩

theorem Closed.transGen {list : List Ty} (closed : types.Closed list) (member : whole ∈ list)
    (unfolds : Relation.TransGen types.Unfolds whole part) : part ∈ list := by
  induction unfolds with
  | single step => exact closed whole member _ step
  | tail _ step ih => exact closed _ ih _ step

/-! Names on the way -/

theorem reaches_resolveWithin (steps : Nat) (ty : Ty) :
    Relation.ReflTransGen types.Unfolds ty (types.resolveWithin steps ty) := by
  induction steps generalizing ty with
  | zero => exact .refl
  | succ steps ih =>
      rw [resolveWithin]
      split
      · rename_i found next
        exact .head (.inl next) (ih found)
      · exact .refl

theorem reaches_resolve (types : Registry) (ty : Ty) :
    Relation.ReflTransGen types.Unfolds ty (types.resolve ty) :=
  reaches_resolveWithin _ ty

theorem unfolds_of_resolve (member : part ∈ (types.resolve ty).parts) :
    Relation.TransGen types.Unfolds ty part :=
  .tail' (types.reaches_resolve ty) (.inr member)

theorem Closed.resolve {list : List Ty} (closed : types.Closed list) (member : ty ∈ list) :
    types.resolve ty ∈ list := by
  rcases Relation.reflTransGen_iff_eq_or_transGen.mp (types.reaches_resolve ty) with same | unfolds
  · rw [same]
    exact member
  · exact closed.transGen member unfolds

def Settles (types : Registry) (ty : Ty) : Prop :=
  types.next? (types.resolve ty) = none

theorem Settles.resolve_eq (settles : types.Settles ty) :
    types.resolve (types.resolve ty) = types.resolve ty :=
  resolve_of_next? settles

theorem transGen_of_follow {steps : Nat} {found : Ty}
    (led : types.follow ty (steps + 1) = some found) :
    Relation.TransGen types.Unfolds ty found := by
  induction steps generalizing found with
  | zero => exact .single (.inl led)
  | succ steps ih =>
      rw [follow, Option.bind_eq_some_iff] at led
      obtain ⟨between, before, next⟩ := led
      exact .tail (ih before) (.inl next)

namespace Acyclic

variable (acyclic : types.Acyclic)

include acyclic

/-- A name that leads on for ever would come to one type twice. -/
theorem settles (ty : Ty) : types.Settles ty := by
  refine (types.resolve_cases ty).resolve_right fun endless => ?_
  obtain ⟨earlier, later, lower, _, same⟩ :=
    exists_repeated (Nat.lt_succ_self _) (endless (types.types.length + 1))
  obtain ⟨more, rfl⟩ := Nat.exists_eq_add_of_lt lower
  obtain ⟨found, led⟩ := Option.isSome_iff_exists.mp (endless (earlier + 1))
  have again : types.follow found (more + 1) = some found := by
    have whole : earlier + more + 1 + 1 = earlier + 1 + (more + 1) := by omega
    rw [whole, follow_add (earlier + 1), led] at same
    exact same.symm
  exact acyclic found (transGen_of_follow again)

theorem wellFounded : WellFounded fun part whole => Relation.TransGen types.Unfolds whole part := by
  refine ⟨fun ty => ?_⟩
  have closed := types.closed_written [ty]
  -- all that the type unfolds to is among finitely many types
  let Within := { one : Ty // one ∈ types.written [ty] }
  let Below : Within → Within → Prop :=
    fun part whole => Relation.TransGen types.Unfolds whole.1 part.1
  have finite : Finite Within := List.finite_toSet (types.written [ty])
  have trans : IsTrans Within Below := ⟨fun _ _ _ lower upper => upper.trans lower⟩
  have irrefl : Std.Irrefl Below := ⟨fun one => acyclic one.1⟩
  have founded : WellFounded Below := Finite.wellFounded_of_trans_of_irrefl Below
  have accessible : ∀ one : Within,
      Acc (fun part whole => Relation.TransGen types.Unfolds whole part) one.1 := by
    intro one
    induction one using founded.induction with
    | _ one ih =>
        exact ⟨_, fun part unfolds => ih ⟨part, closed.transGen one.2 unfolds⟩ unfolds⟩
  exact accessible ⟨ty, mem_written List.mem_cons_self⟩

end Acyclic

end Registry

end GraphQuery
