import GraphQuery.Proofs.Requirement.Collect

/-!
Where the requirements of an expression come from: the references of its symbols, attributes and
bound names, and arguments whose requirements a template extends. What is inside such an argument is
not looked at, but its references are those that the argument's own refers back to.
-/

namespace GraphQuery

namespace References

inductive RefersBack (references : References) : Nat → Nat → Prop
  | refl {index} : RefersBack references index index
  | step {index back earlier entry} : references.get? index = some entry →
      entry.back? = some back → RefersBack references back earlier →
      RefersBack references index earlier

variable {references : References} {index middle earlier : Nat}

theorem RefersBack.trans (refers : references.RefersBack index middle)
    (onward : references.RefersBack middle earlier) : references.RefersBack index earlier := by
  induction refers with
  | refl => exact onward
  | step entry back _ ih => exact .step entry back (ih onward)

theorem RefersBack.path_prefix (refers : references.RefersBack index earlier)
    (ordered : references.Ordered) : references.path earlier <+: references.path index := by
  induction refers with
  | refl => exact List.prefix_refl _
  | step entry back _ ih =>
      rw [path_of_back ordered entry back]
      exact ih.trans (List.prefix_append _ _)

end References

namespace Typed

/-- The reference of a symbol or an attribute, or of the name that an expression binds. -/
def pointer? : Typed → Option Nat
  | symbol reference _ => some reference
  | get reference _ _ => some reference
  | each binder _ _ => some binder.reference
  | ifSome binder _ _ _ => some binder.reference
  | _ => none

def Points (typed : Typed) (index : Nat) : Prop :=
  ∃ part, typed.Contains part ∧ part.pointer? = some index

theorem pointer_of_reference {typed : Typed} {index : Nat}
    (own : typed.reference? = some index) : typed.pointer? = some index := by
  cases typed with
  | symbol | get => exact own
  | _ => cases own

def Extends (typed : Typed) (index : Nat) (below : Query) : Prop :=
  ∃ function params args arg param, typed.Contains (.call function params args) ∧
    (arg, param) ∈ args.zip params ∧ arg.reference? = some index ∧ param.template? = some below

inductive Sources : Typed → Nat → Option Query → Prop
  | pointer {typed index} : typed.pointer? = some index → Sources typed index none
  | part {typed part index below?} : (∀ function params args, typed ≠ .call function params args) →
      part ∈ typed.parts → Sources part index below? → Sources typed index below?
  | template {function params args arg param index below} : (arg, param) ∈ args.zip params →
      arg.reference? = some index → param.template? = some below →
      Sources (.call function params args) index (some below)
  | arg {function params args arg param index below?} : (arg, param) ∈ args.zip params →
      arg.reference? = none ∨ param.template? = none → Sources arg index below? →
      Sources (.call function params args) index below?

theorem sizeOf_lt_of_mem_parts {typed part : Typed} (member : part ∈ typed.parts) :
    sizeOf part < sizeOf typed := by
  cases typed with
  | symbol | constant => simp [parts] at member
  | get reference object name =>
      obtain rfl := List.mem_singleton.mp member
      simp only [get.sizeOf_spec]
      omega
  | each binder collection body =>
      simp only [parts, List.mem_cons, List.not_mem_nil, or_false] at member
      simp only [each.sizeOf_spec]
      rcases member with rfl | rfl <;> omega
  | ifElse test yes no =>
      simp only [parts, List.mem_cons, List.not_mem_nil, or_false] at member
      simp only [ifElse.sizeOf_spec]
      rcases member with rfl | rfl | rfl <;> omega
  | ifSome binder bound yes no =>
      simp only [parts, List.mem_cons, List.not_mem_nil, or_false] at member
      simp only [ifSome.sizeOf_spec]
      rcases member with rfl | rfl | rfl <;> omega
  | call function params args =>
      have smaller : sizeOf part < sizeOf args := List.sizeOf_lt_of_mem member
      simp only [call.sizeOf_spec]
      omega
  | list items =>
      have smaller : sizeOf part < sizeOf items := List.sizeOf_lt_of_mem member
      simp only [list.sizeOf_spec]
      omega
  | map entries =>
      obtain ⟨⟨key, value⟩, inside, rfl⟩ := List.mem_map.mp member
      have smaller := List.sizeOf_lt_of_mem inside
      simp only [Prod.mk.sizeOf_spec] at smaller
      simp only [map.sizeOf_spec]
      omega

theorem induct {motive : Typed → Prop}
    (step : ∀ typed : Typed, (∀ part ∈ typed.parts, motive part) → motive typed)
    (typed : Typed) : motive typed := by
  induction size : sizeOf typed using Nat.strongRecOn generalizing typed with
  | ind size ih =>
      subst size
      exact step typed fun part member => ih _ (sizeOf_lt_of_mem_parts member) part rfl

end Typed

namespace Requirement

variable {types : Registry} {references : References} {typed : Typed} {query : Query}

theorem mem_collect_iff_of_parts
    (other : ∀ function params args, typed ≠ .call function params args) :
    query ∈ collect types references typed ↔
      (∃ index, typed.pointer? = some index ∧ query ∈ ofReference types references index none) ∨
        ∃ part ∈ typed.parts, query ∈ collect types references part := by
  cases typed with
  | symbol | constant => simp [collect, ofTyped, Typed.reference?, Typed.pointer?, Typed.parts]
  | get => simp [collect, ofTyped, Typed.reference?, Typed.pointer?, Typed.parts]
  | each | ifElse | ifSome => simp [collect, Typed.pointer?, Typed.parts]
  | list items => simp [collect, mem_collectList_iff, Typed.pointer?, Typed.parts]
  | map entries => simp [collect, mem_collectEntries_iff, Typed.pointer?, Typed.parts]
  | call function params args => exact (other _ _ _ rfl).elim

theorem collectArg_of_template {arg : Typed} {param : Ty} {index : Nat} {below : Query}
    (own : arg.reference? = some index) (asked : param.template? = some below) :
    collectArg types references arg param = ofReference types references index (some below) := by
  simp only [collectArg, own, asked]

theorem collectArg_of_plain {arg : Typed} {param : Ty}
    (plain : arg.reference? = none ∨ param.template? = none) :
    collectArg types references arg param = collect types references arg := by
  rw [collectArg]
  split
  · rename_i own asked
    simp [own, asked] at plain
  · rfl

/-- Requirements are collected for the sources of an expression and for nothing else. -/
theorem mem_collect_iff : query ∈ collect types references typed ↔
    ∃ index below?, typed.Sources index below? ∧
      query ∈ ofReference types references index below? := by
  constructor
  · intro member
    induction typed using Typed.induct with
    | step typed ih =>
        by_cases call : ∃ function params args, typed = .call function params args
        · obtain ⟨function, params, args, rfl⟩ := call
          obtain ⟨⟨arg, param⟩, inside, required⟩ := mem_collectArgs_iff.mp member
          cases own : arg.reference? with
          | none =>
              rw [collectArg_of_plain (.inl own)] at required
              obtain ⟨index, below?, sources, made⟩ := ih arg (List.of_mem_zip inside).1 required
              exact ⟨index, below?, .arg inside (.inl own) sources, made⟩
          | some index =>
              cases asked : param.template? with
              | none =>
                  rw [collectArg_of_plain (.inr asked)] at required
                  obtain ⟨index, below?, sources, made⟩ :=
                    ih arg (List.of_mem_zip inside).1 required
                  exact ⟨index, below?, .arg inside (.inr asked) sources, made⟩
              | some below =>
                  rw [collectArg_of_template own asked] at required
                  exact ⟨index, some below, .template inside own asked, required⟩
        · have other : ∀ function params args, typed ≠ .call function params args :=
            fun function params args same => call ⟨function, params, args, same⟩
          rcases (mem_collect_iff_of_parts other).mp member with
            ⟨index, pointer, made⟩ | ⟨part, inside, required⟩
          · exact ⟨index, none, .pointer pointer, made⟩
          · obtain ⟨index, below?, sources, made⟩ := ih part inside required
            exact ⟨index, below?, .part other inside sources, made⟩
  · rintro ⟨index, below?, sources, made⟩
    induction sources with
    | @pointer typed index pointer =>
        have other : ∀ function params args, typed ≠ .call function params args := by
          rintro function params args rfl
          cases pointer
        exact (mem_collect_iff_of_parts other).mpr (.inl ⟨index, pointer, made⟩)
    | part other inside _ ih =>
        exact (mem_collect_iff_of_parts other).mpr (.inr ⟨_, inside, ih made⟩)
    | template inside own asked =>
        exact mem_collectArgs_iff.mpr ⟨_, inside, collectArg_of_template own asked ▸ made⟩
    | arg inside plain _ ih =>
        exact mem_collectArgs_iff.mpr ⟨_, inside, collectArg_of_plain plain ▸ ih made⟩

end Requirement

/-! Sources of well-typed expressions -/

namespace Typing.WellTyped

variable {typing : Typing} {references : References} {roots : List (String × Ty)} {scope : Scope}
  {typed part : Typed} {index : Nat} {below : Query} {below? : Option Query}

theorem ofPart (wellTyped : typing.WellTyped references scope typed)
    (tracked : scope.Tracked typing references roots) (member : part ∈ typed.parts) :
    ∃ inner : Scope, inner.Tracked typing references roots ∧
      typing.WellTyped references inner part := by
  cases wellTyped with
  | symbol | constant => simp [Typed.parts] at member
  | get _ _ _ _ object => exact ⟨scope, tracked, List.mem_singleton.mp member ▸ object⟩
  | each own sequence entry collection body =>
      have trackedItem := Tracked.item entry sequence (collection.tracked tracked own)
      simp only [Typed.parts, List.mem_cons, List.not_mem_nil, or_false] at member
      rcases member with rfl | rfl
      · exact ⟨scope, tracked, collection⟩
      · exact ⟨_, tracked.cons _ trackedItem, body⟩
  | ifElse test yes no =>
      simp only [Typed.parts, List.mem_cons, List.not_mem_nil, or_false] at member
      rcases member with rfl | rfl | rfl
      · exact ⟨scope, tracked, test⟩
      · exact ⟨scope, tracked, yes⟩
      · exact ⟨scope, tracked, no⟩
  | ifSome own presents bound yes no =>
      have trackedItem := presents.tracked (bound.tracked tracked own)
      simp only [Typed.parts, List.mem_cons, List.not_mem_nil, or_false] at member
      rcases member with rfl | rfl | rfl
      · exact ⟨scope, tracked, bound⟩
      · exact ⟨_, tracked.cons _ trackedItem, yes⟩
      · exact ⟨scope, tracked, no⟩
  | call _ _ _ _ args => exact ⟨scope, tracked, args part member⟩
  | list items => exact ⟨scope, tracked, items part member⟩
  | map entries =>
      obtain ⟨entry, inside, rfl⟩ := List.mem_map.mp member
      exact ⟨scope, tracked, entries entry inside⟩

theorem ofContained (wellTyped : typing.WellTyped references scope typed)
    (tracked : scope.Tracked typing references roots) (contains : typed.Contains part) :
    ∃ inner : Scope, inner.Tracked typing references roots ∧
      typing.WellTyped references inner part := by
  induction contains generalizing scope with
  | refl => exact ⟨scope, tracked, wellTyped⟩
  | step member _ ih =>
      obtain ⟨inner, trackedInner, wellTypedInner⟩ := wellTyped.ofPart tracked member
      exact ih wellTypedInner trackedInner

theorem tracked_of_points (wellTyped : typing.WellTyped references scope typed)
    (tracked : scope.Tracked typing references roots) (points : typed.Points index) :
    typing.Tracked references roots index := by
  obtain ⟨part, contains, pointer⟩ := points
  obtain ⟨inner, trackedInner, wellTypedInner⟩ := wellTyped.ofContained tracked contains
  cases wellTypedInner with
  | symbol found =>
      obtain rfl := Option.some.inj pointer
      exact trackedInner _ _ found
  | get own record declared entry object =>
      obtain rfl := Option.some.inj pointer
      exact .field entry record declared (object.tracked trackedInner own)
  | each own sequence entry collection _ =>
      obtain rfl := Option.some.inj pointer
      exact .item entry sequence (collection.tracked trackedInner own)
  | ifSome own presents bound _ _ =>
      obtain rfl := Option.some.inj pointer
      exact presents.tracked (bound.tracked trackedInner own)
  | constant | ifElse | call | list | map => simp [Typed.pointer?] at pointer

/-- What is inside an expression with a reference of its own has a reference too, to which the
expression's own refers back. -/
theorem refersBack_of_contains (wellTyped : typing.WellTyped references scope typed) {own : Nat}
    (reference : typed.reference? = some own) (contains : typed.Contains part) :
    ∃ index, part.reference? = some index ∧ references.RefersBack own index := by
  induction contains generalizing scope own with
  | refl => exact ⟨own, reference, .refl⟩
  | step member _ ih =>
      cases wellTyped with
      | symbol => simp [Typed.parts] at member
      | get ownObject _ _ entry object =>
          obtain rfl := List.mem_singleton.mp member
          obtain rfl := Option.some.inj reference
          obtain ⟨index, referenceInner, refers⟩ := ih object ownObject
          exact ⟨index, referenceInner, .step entry rfl refers⟩
      | constant | each | ifElse | ifSome | call | list | map =>
          simp [Typed.reference?] at reference

/-- An argument whose parameter has a template is a source; all other parts are looked at. -/
theorem arg_cases {function : String} {params : List Ty} {args : List Typed}
    (wellTyped : typing.WellTyped references scope (.call function params args)) {arg : Typed}
    (member : arg ∈ args) : ∃ param, (arg, param) ∈ args.zip params ∧
      ((arg.reference? = none ∨ param.template? = none) ∨
        ∃ index below, arg.reference? = some index ∧ param.template? = some below) := by
  have arity : params.length = args.length := by
    cases wellTyped
    assumption
  obtain ⟨position, bound, rfl⟩ := List.mem_iff_getElem.mp member
  have boundToo : position < params.length := by omega
  have inside : (args[position], params[position]) ∈ args.zip params :=
    List.mem_iff_getElem.mpr ⟨position, by simp [bound, boundToo], List.getElem_zip⟩
  refine ⟨params[position], inside, ?_⟩
  cases own : args[position].reference? with
  | none => exact .inl (.inl rfl)
  | some index =>
      cases asked : params[position].template? with
      | none => exact .inl (.inr rfl)
      | some below => exact .inr ⟨index, below, rfl, rfl⟩

theorem sources_of_points (wellTyped : typing.WellTyped references scope typed)
    (tracked : scope.Tracked typing references roots) (points : typed.Points index) :
    ∃ outer below?, typed.Sources outer below? ∧ references.RefersBack outer index := by
  obtain ⟨part, contains, pointer⟩ := points
  induction contains generalizing scope with
  | refl => exact ⟨index, none, .pointer pointer, .refl⟩
  | @step typed part inner member contains ih =>
      obtain ⟨scopeInner, trackedInner, wellTypedInner⟩ := wellTyped.ofPart tracked member
      obtain ⟨outer, below?, sources, refers⟩ := ih wellTypedInner trackedInner pointer
      by_cases call : ∃ function params args, typed = .call function params args
      · obtain ⟨function, params, args, rfl⟩ := call
        obtain ⟨param, inside, plain | ⟨own, below, reference, asked⟩⟩ :=
          wellTyped.arg_cases member
        · exact ⟨outer, below?, .arg inside plain sources, refers⟩
        · obtain ⟨found, referenceInner, refersToo⟩ :=
            wellTypedInner.refersBack_of_contains reference contains
          have same := (Typed.pointer_of_reference referenceInner).symm.trans pointer
          obtain rfl := Option.some.inj same
          exact ⟨own, some below, .template inside reference asked, refersToo⟩
      · have other : ∀ function params args, typed ≠ .call function params args :=
          fun function params args same => call ⟨function, params, args, same⟩
        exact ⟨outer, below?, .part other member sources, refers⟩

theorem sources_of_extends (wellTyped : typing.WellTyped references scope typed)
    (tracked : scope.Tracked typing references roots) (asks : typed.Extends index below) :
    typed.Sources index (some below) := by
  obtain ⟨function, params, args, arg, param, contains, given, own, asked⟩ := asks
  generalize whole : Typed.call function params args = inner at contains
  induction contains generalizing scope with
  | refl => exact whole ▸ .template given own asked
  | @step typed part inner member contains ih =>
      obtain ⟨scopeInner, trackedInner, wellTypedInner⟩ := wellTyped.ofPart tracked member
      have sources := ih wellTypedInner trackedInner whole
      by_cases call : ∃ function params args, typed = .call function params args
      · obtain ⟨function, params, args, rfl⟩ := call
        obtain ⟨param, inside, plain | ⟨_, _, reference, _⟩⟩ := wellTyped.arg_cases member
        · exact .arg inside plain sources
        · -- an argument with a reference of its own holds no calls
          obtain ⟨_, referenceInner, _⟩ :=
            wellTypedInner.refersBack_of_contains reference contains
          rw [← whole] at referenceInner
          cases referenceInner
      · have other : ∀ function params args, typed ≠ .call function params args :=
          fun function params args same => call ⟨function, params, args, same⟩
        exact .part other member sources

end Typing.WellTyped

namespace Typed

variable {typed part : Typed} {index : Nat} {below : Query}

theorem Points.step (member : part ∈ typed.parts) (points : part.Points index) :
    typed.Points index := by
  obtain ⟨inner, contains, pointer⟩ := points
  exact ⟨inner, .step member contains, pointer⟩

theorem Extends.step (member : part ∈ typed.parts) (asks : part.Extends index below) :
    typed.Extends index below := by
  obtain ⟨function, params, args, arg, param, contains, rest⟩ := asks
  exact ⟨function, params, args, arg, param, .step member contains, rest⟩

theorem Sources.extends (sources : typed.Sources index (some below)) :
    typed.Extends index below := by
  generalize whole : some below = below? at sources
  induction sources with
  | pointer => cases whole
  | part _ member _ ih => exact (ih whole).step member
  | template given own asked =>
      obtain rfl := Option.some.inj whole
      exact ⟨_, _, _, _, _, .refl, given, own, asked⟩
  | arg given _ _ ih => exact (ih whole).step (List.of_mem_zip given).1

theorem Sources.points {below? : Option Query} (sources : typed.Sources index below?) :
    typed.Points index := by
  induction sources with
  | pointer pointer => exact ⟨_, .refl, pointer⟩
  | part _ member _ ih => exact ih.step member
  | template given own _ =>
      exact ⟨_, .step (List.of_mem_zip given).1 .refl, pointer_of_reference own⟩
  | arg given _ _ ih => exact ih.step (List.of_mem_zip given).1

end Typed

namespace Requirement

variable {typing : Typing} {references : References} {roots : List (String × Ty)} {scope : Scope}
  {typed : Typed} {query below : Query} {index : Nat}

theorem templated_of_extends (wellTyped : typing.WellTyped references scope typed)
    (tracked : scope.Tracked typing references roots) (asks : typed.Extends index below) :
    Templated typing references typed index below := by
  obtain ⟨function, params, args, arg, param, contains, given, own, asked⟩ := asks
  obtain ⟨_, _, wellTypedCall⟩ := wellTyped.ofContained tracked contains
  cases wellTypedCall with
  | call _ _ _ fits _ =>
      exact ⟨function, _, args, arg, param, contains, given, own, asked, fits _ given⟩

/-- Everything that is collected from a well-typed expression is required by a reference. -/
theorem requires_of_mem_collect (wellTyped : typing.WellTyped references scope typed)
    (tracked : scope.Tracked typing references roots)
    (member : query ∈ collect typing.types references typed) :
    Requires typing references roots typed query := by
  obtain ⟨index, below?, sources, made⟩ := mem_collect_iff.mp member
  refine ⟨index, below?, wellTyped.tracked_of_points tracked sources.points, made, ?_⟩
  rintro below rfl
  exact templated_of_extends wellTyped tracked sources.extends

end Requirement

end GraphQuery
