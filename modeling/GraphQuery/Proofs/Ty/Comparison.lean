import GraphQuery.Proofs.Except
import GraphQuery.Proofs.Ty.Unfolding
import GraphQuery.Ty.Compatible
import Mathlib.Data.Fintype.Pigeonhole

/-!
What one comparison of types asks of the types inside them, and that the depth at which comparisons
are cut off is out of reach of those that end.
-/

namespace GraphQuery

namespace Ty

def compared : Ty → Ty → List (Ty × Ty)
  | _, any => []
  | optional item, optional other => [(item, other)]
  | sequence item, sequence other => [(item, other)]
  | mapping key value, mapping otherKey otherValue => [(key, otherKey), (value, otherValue)]
  | record fields, record expected => expected.filterMap fun (name, target) =>
      (Entries.find? fields name).map fun source => (source, target)
  | source, optional item => [(source, item)]
  | _, _ => []

/-- When a resolved type can be used where another is expected, given which types inside can. -/
inductive Fits (passes : Ty → Ty → Prop) : Ty → Ty → Prop
  | any {source : Ty} : Fits passes source any
  | optional {item other} : passes item other → Fits passes (optional item) (optional other)
  | present {source item : Ty} : (∀ inner, source ≠ optional inner) → passes source item →
      Fits passes source (optional item)
  | sequence {item other} : passes item other → Fits passes (sequence item) (sequence other)
  | mapping {key value otherKey otherValue} : passes key otherKey → passes value otherValue →
      Fits passes (mapping key value) (mapping otherKey otherValue)
  | record {fields expected} : (∀ name target, (name, target) ∈ expected → ∃ source,
      Entries.find? fields name = some source ∧ passes source target) →
      Fits passes (record fields) (record expected)
  | boolean : Fits passes boolean boolean
  | string : Fits passes string string
  | integer : Fits passes integer integer
  | float : Fits passes float float
  | named {kind name} : Fits passes (named kind name) (named kind name)

variable {passes passesToo : Ty → Ty → Prop} {source target : Ty}

theorem compared_optional (unwrapped : ∀ inner, source ≠ optional inner) (item : Ty) :
    compared source (optional item) = [(source, item)] := by
  cases source with
  | optional inner => exact (unwrapped inner rfl).elim
  | _ => rfl

theorem mem_compared_record {fields expected : List (String × Ty)} {name : String}
    (member : (name, target) ∈ expected) (found : Entries.find? fields name = some source) :
    (source, target) ∈ compared (record fields) (record expected) :=
  List.mem_filterMap.mpr ⟨(name, target), member, by simp only [found, Option.map_some]⟩

theorem Fits.imp (fits : Fits passes source target)
    (each : ∀ pair ∈ compared source target, passes pair.1 pair.2 → passesToo pair.1 pair.2) :
    Fits passesToo source target := by
  cases fits with
  | any => exact .any
  | optional inner => exact .optional (each _ List.mem_cons_self inner)
  | present unwrapped inner =>
      rw [compared_optional unwrapped] at each
      exact .present unwrapped (each _ List.mem_cons_self inner)
  | sequence inner => exact .sequence (each _ List.mem_cons_self inner)
  | mapping keys values =>
      exact .mapping (each _ List.mem_cons_self keys)
        (each _ (List.mem_cons_of_mem _ List.mem_cons_self) values)
  | record fields =>
      refine .record fun name target member => ?_
      obtain ⟨source, found, inner⟩ := fields name target member
      exact ⟨source, found, each _ (mem_compared_record member found) inner⟩
  | boolean => exact .boolean
  | string => exact .string
  | integer => exact .integer
  | float => exact .float
  | named => exact .named

theorem Fits.each (fits : Fits passes source target) {pair : Ty × Ty}
    (member : pair ∈ compared source target) : passes pair.1 pair.2 := by
  cases fits with
  | any => cases source <;> cases member
  | optional inner | sequence inner =>
      obtain rfl := List.mem_singleton.mp member
      exact inner
  | present unwrapped inner =>
      rw [compared_optional unwrapped] at member
      obtain rfl := List.mem_singleton.mp member
      exact inner
  | mapping keys values =>
      simp only [compared, List.mem_cons, List.not_mem_nil, or_false] at member
      rcases member with rfl | rfl
      · exact keys
      · exact values
  | record fields =>
      obtain ⟨⟨name, expected⟩, inside, made⟩ := List.mem_filterMap.mp member
      obtain ⟨source, found, passed⟩ := fields name expected inside
      simp only [found, Option.map_some, Option.some.injEq] at made
      exact made ▸ passed
  | boolean | string | integer | float | named => cases member

/-- What is compared next is in the types, but for a source that is compared once more. -/
theorem parts_of_mem_compared {pair : Ty × Ty} (member : pair ∈ compared source target) :
    (pair.1 = source ∨ pair.1 ∈ source.parts) ∧ pair.2 ∈ target.parts := by
  cases target with
  | optional item =>
      cases source with
      | _ =>
          obtain rfl := List.mem_singleton.mp member
          simp [parts]
  | sequence item =>
      cases source with
      | sequence inner =>
          obtain rfl := List.mem_singleton.mp member
          simp [parts]
      | _ => cases member
  | mapping key value =>
      cases source with
      | mapping innerKey innerValue =>
          simp only [compared, List.mem_cons, List.not_mem_nil, or_false] at member
          rcases member with rfl | rfl <;> simp [parts]
      | _ => cases member
  | record expected =>
      cases source with
      | record fields =>
          obtain ⟨⟨name, target⟩, inside, made⟩ := List.mem_filterMap.mp member
          obtain ⟨source, found, rfl⟩ := Option.map_eq_some_iff.mp made
          exact ⟨.inr (List.mem_map.mpr ⟨_, Entries.mem_of_find? found, rfl⟩),
            List.mem_map.mpr ⟨_, inside, rfl⟩⟩
      | _ => cases member
  | _ => cases source <;> cases member

end Ty

namespace Registry

variable {types : Registry} {source target : Ty} {depth : Nat}

theorem checkFields_ok {check : Ty → Ty → Except Mismatch Unit} {fields expected : Entries Ty}
    (passed : checkFields check fields expected = .ok ()) {name : String} {target : Ty}
    (member : (name, target) ∈ expected) :
    ∃ source, Entries.find? fields name = some source ∧ check source target = .ok () := by
  induction expected with
  | nil => simp at member
  | cons entry rest ih =>
      obtain ⟨other, first⟩ := entry
      simp only [checkFields] at passed
      split at passed
      · simp at passed
      · rename_i source found
        obtain ⟨_, checked, passedRest⟩ := bind_eq_ok_iff.mp passed
        rcases List.mem_cons.mp member with same | member
        · simp only [Prod.mk.injEq] at same
          obtain ⟨rfl, rfl⟩ := same
          exact ⟨source, found, checked⟩
        · exact ih passedRest member

theorem checkFields_of_each {check : Ty → Ty → Except Mismatch Unit} {fields expected : Entries Ty}
    (each : ∀ name target, (name, target) ∈ expected → ∃ source,
      Entries.find? fields name = some source ∧ check source target = .ok ()) :
    checkFields check fields expected = .ok () := by
  induction expected with
  | nil => rfl
  | cons entry rest ih =>
      obtain ⟨name, target⟩ := entry
      obtain ⟨source, found, passed⟩ := each name target List.mem_cons_self
      rw [checkFields, found]
      exact bind_eq_ok_iff.mpr ⟨(), passed,
        ih fun name target member => each name target (List.mem_cons_of_mem _ member)⟩

theorem checkFields_congr {check checkToo : Ty → Ty → Except Mismatch Unit}
    {fields expected : Entries Ty} (each : ∀ name source target, (name, target) ∈ expected →
      Entries.find? fields name = some source → check source target = checkToo source target) :
    checkFields check fields expected = checkFields checkToo fields expected := by
  induction expected with
  | nil => rfl
  | cons entry rest ih =>
      obtain ⟨name, target⟩ := entry
      rw [checkFields, checkFields]
      cases found : Entries.find? fields name with
      | none => rfl
      | some source =>
          simp only [each name source target List.mem_cons_self found,
            ih fun name source target member =>
              each name source target (List.mem_cons_of_mem _ member)]

theorem checkWithin_succ_ok_iff : types.checkWithin (depth + 1) source target = .ok () ↔
    Ty.Fits (fun inner expected => types.checkWithin depth inner expected = .ok ())
      (types.resolve source) (types.resolve target) := by
  rw [checkWithin]
  generalize types.resolve source = found
  generalize types.resolve target = expected
  constructor
  · intro passed
    cases expected with
    | any => exact .any
    | optional item =>
        cases found with
        | optional inner => exact .optional passed
        | _ => exact .present (fun inner same => nomatch same) passed
    | sequence item =>
        cases found with
        | sequence inner => exact .sequence passed
        | _ => cases passed
    | mapping key value =>
        cases found with
        | mapping innerKey innerValue =>
            obtain ⟨_, keys, values⟩ := bind_eq_ok_iff.mp passed
            exact .mapping keys values
        | _ => cases passed
    | record expected =>
        cases found with
        | record fields => exact .record fun name target member => checkFields_ok passed member
        | _ => cases passed
    | named kind name =>
        cases found with
        | named otherKind otherName =>
            simp only [ite_eq_left_iff, reduceCtorEq, imp_false, not_not] at passed
            obtain ⟨rfl, rfl⟩ := passed
            exact .named
        | _ => cases passed
    | boolean =>
        cases found with
        | boolean => exact .boolean
        | _ => cases passed
    | string =>
        cases found with
        | string => exact .string
        | _ => cases passed
    | integer =>
        cases found with
        | integer => exact .integer
        | _ => cases passed
    | float =>
        cases found with
        | float => exact .float
        | _ => cases passed
  · intro fits
    cases fits with
    | any => cases found <;> rfl
    | optional inner | sequence inner => exact inner
    | present unwrapped inner =>
      cases found with
      | optional item => exact (unwrapped item rfl).elim
      | _ => exact inner
    | mapping keys values => exact bind_eq_ok_iff.mpr ⟨(), keys, values⟩
    | record fields => exact checkFields_of_each fields
    | boolean | string | integer | float => rfl
    | named => exact if_pos ⟨rfl, rfl⟩

theorem checkWithin_congr {other : Nat}
    (each : ∀ pair ∈ Ty.compared (types.resolve source) (types.resolve target),
      types.checkWithin depth pair.1 pair.2 = types.checkWithin other pair.1 pair.2) :
    types.checkWithin (depth + 1) source target = types.checkWithin (other + 1) source target := by
  rw [checkWithin, checkWithin]
  generalize types.resolve source = found at each ⊢
  generalize types.resolve target = expected at each ⊢
  cases expected with
  | any => cases found <;> rfl
  | optional item =>
      cases found with
      | _ => exact each _ List.mem_cons_self
  | sequence item =>
      cases found with
      | sequence inner => exact each _ List.mem_cons_self
      | _ => rfl
  | mapping key value =>
      cases found with
      | mapping innerKey innerValue =>
          have keys := each (innerKey, key) List.mem_cons_self
          have values := each (innerValue, value) (List.mem_cons_of_mem _ List.mem_cons_self)
          simp only [keys, values]
      | _ => rfl
  | record expected =>
      cases found with
      | record fields =>
          exact checkFields_congr fun name source target member found =>
            each _ (Ty.mem_compared_record member found)
      | _ => rfl
  | _ => cases found <;> rfl

/-! Comparisons that end -/

/--
Comparing two types ends: the names they go by do, and so does all that is to be compared next, even
after a mismatch.
-/
inductive Ends (types : Registry) : Ty → Ty → Prop
  | mk {source target : Ty} : types.Settles source → types.Settles target →
      (∀ pair ∈ Ty.compared (types.resolve source) (types.resolve target),
        Ends types pair.1 pair.2) → Ends types source target

def Decides (types : Registry) (depth : Nat) (source target : Ty) : Prop :=
  ∀ more, depth ≤ more →
    types.checkWithin more source target = types.checkWithin depth source target

theorem Decides.mono {more : Nat} (decides : types.Decides depth source target)
    (deeper : depth ≤ more) : types.Decides more source target :=
  fun most deepest => (decides most (deeper.trans deepest)).trans (decides more deeper).symm

theorem decides_succ
    (each : ∀ pair ∈ Ty.compared (types.resolve source) (types.resolve target),
      types.Decides depth pair.1 pair.2) : types.Decides (depth + 1) source target := by
  intro more deeper
  obtain ⟨more, rfl⟩ := Nat.exists_eq_add_of_le' (Nat.zero_lt_of_lt deeper)
  exact checkWithin_congr fun pair member => each pair member more (Nat.le_of_succ_le_succ deeper)

variable {list : List Ty}

theorem Closed.compared (closed : types.Closed list) (inside : source ∈ list)
    (insideToo : target ∈ list) {pair : Ty × Ty}
    (member : pair ∈ Ty.compared (types.resolve source) (types.resolve target)) :
    pair.1 ∈ list ∧ pair.2 ∈ list := by
  obtain ⟨first, second⟩ := Ty.parts_of_mem_compared member
  refine ⟨?_, closed _ (closed.resolve insideToo) _ (.inr second)⟩
  rcases first with same | first
  · exact same ▸ closed.resolve inside
  · exact closed _ (closed.resolve inside) _ (.inr first)

/-- What passes at any depth ends, where names do. -/
theorem ends_of_checkWithin_ok (closed : types.Closed list)
    (settles : ∀ ty ∈ list, types.Settles ty) (inside : source ∈ list) (insideToo : target ∈ list)
    (passed : types.checkWithin depth source target = .ok ()) : types.Ends source target := by
  induction depth generalizing source target with
  | zero => cases passed
  | succ depth ih =>
      have fits := checkWithin_succ_ok_iff.mp passed
      refine .mk (settles source inside) (settles target insideToo) fun pair member => ?_
      obtain ⟨first, second⟩ := closed.compared inside insideToo member
      exact ih first second (fits.each member)

/-- While a comparison is undecided, each step deeper decides some comparison for the first time. -/
theorem Ends.exists_decided (ends : types.Ends source target) (closed : types.Closed list)
    (inside : source ∈ list) (insideToo : target ∈ list)
    (undecided : ¬ types.Decides depth source target) : ∃ first ∈ list, ∃ second ∈ list,
      types.Decides (depth + 1) first second ∧ ¬ types.Decides depth first second := by
  induction ends with
  | @mk source target _ _ _ ih =>
      by_cases decided : types.Decides (depth + 1) source target
      · exact ⟨source, inside, target, insideToo, decided, undecided⟩
      · have left : ¬ ∀ pair ∈ Ty.compared (types.resolve source) (types.resolve target),
            types.Decides depth pair.1 pair.2 := fun each => decided (decides_succ each)
        push Not at left
        obtain ⟨pair, member, undecided⟩ := left
        obtain ⟨inside, insideToo⟩ := closed.compared inside insideToo member
        exact ih pair member inside insideToo undecided

theorem Ends.decides (ends : types.Ends source target) (closed : types.Closed list)
    (inside : source ∈ list) (insideToo : target ∈ list) :
    types.Decides (list.length ^ 2) source target := by
  by_contra undecided
  have each : ∀ depth : Fin (list.length ^ 2 + 1), ∃ place : Fin list.length × Fin list.length,
      types.Decides (depth + 1) (list.get place.1) (list.get place.2) ∧
        ¬ types.Decides depth (list.get place.1) (list.get place.2) := by
    intro depth
    have before : ¬ types.Decides depth source target := fun decides =>
      undecided (decides.mono (Nat.le_of_lt_succ depth.2))
    obtain ⟨_, first, _, second, decided⟩ :=
      ends.exists_decided closed inside insideToo before
    obtain ⟨place, rfl⟩ := List.mem_iff_get.mp first
    obtain ⟨placeToo, rfl⟩ := List.mem_iff_get.mp second
    exact ⟨(place, placeToo), decided⟩
  choose place decided using each
  -- there are more depths than pairs, and no pair is decided for the first time at two of them
  obtain ⟨lower, upper, different, same⟩ :=
    Fintype.exists_ne_map_eq_of_card_lt place (by simp [sq])
  wlog below : lower < upper generalizing lower upper
  · exact this upper lower different.symm same.symm
      (lt_of_le_of_ne (not_lt.mp below) different.symm)
  have already := (decided lower).1.mono (Nat.succ_le_of_lt below)
  rw [same] at already
  exact (decided upper).2 already

/-- The depth at which comparisons are cut off is out of reach. -/
theorem Ends.checkWithin_eq (ends : types.Ends source target)
    (deep : (types.size + source.size + target.size) ^ 2 ≤ depth) :
    types.checkWithin depth source target = types.checkType source target := by
  have decides := ends.decides (types.closed_written [source, target])
    (mem_written List.mem_cons_self) (mem_written (List.mem_cons_of_mem _ List.mem_cons_self))
  rw [length_written] at decides
  exact (decides depth deep).trans (decides _ (Nat.le_succ _)).symm

theorem Ends.eq_checkType (ends : types.Ends source target)
    (decides : types.Decides depth source target) :
    types.checkWithin depth source target = types.checkType source target :=
  (decides _ (Nat.le_max_left _ _)).symm.trans (ends.checkWithin_eq (Nat.le_max_right _ _))

theorem Ends.checkType_ok_iff (ends : types.Ends source target) :
    types.checkType source target = .ok () ↔
      Ty.Fits (fun inner expected => types.checkType inner expected = .ok ())
        (types.resolve source) (types.resolve target) := by
  obtain ⟨_, _, each⟩ := ends
  have closed := types.closed_written [source, target]
  have inside : source ∈ types.written [source, target] := mem_written List.mem_cons_self
  have insideToo : target ∈ types.written [source, target] :=
    mem_written (List.mem_cons_of_mem _ List.mem_cons_self)
  have same : ∀ pair ∈ Ty.compared (types.resolve source) (types.resolve target),
      types.checkWithin ((types.size + source.size + target.size) ^ 2) pair.1 pair.2 =
        types.checkType pair.1 pair.2 := by
    intro pair member
    obtain ⟨first, second⟩ := closed.compared inside insideToo member
    have decides := (each pair member).decides closed first second
    rw [length_written] at decides
    exact (each pair member).eq_checkType decides
  refine checkWithin_succ_ok_iff.trans ⟨fun fits => ?_, fun fits => ?_⟩
  · exact fits.imp fun pair member passed => (same pair member).symm.trans passed
  · exact fits.imp fun pair member passed => (same pair member).trans passed

end Registry

end GraphQuery
