import GraphQuery.Proofs.Value.Equality
import GraphQuery.Query.Slot

/-!
When two selections mean the same: both are fields or both links, with one name and equal options.
Among selections whose options name each entry once this is a partial equivalence, and an
equivalence among those that hold no NaN.
-/

namespace GraphQuery

namespace Head

def values (head : Head) : List Value :=
  head.options?.toList.map .object ++
    head.directives.map fun directive => .object directive.arguments

def isKeyed (head : Head) : Bool :=
  head.values.all Value.isKeyed

def isNaNFree (head : Head) : Bool :=
  head.values.all Value.isNaNFree

end Head

namespace Query

mutual

def every (check : Head → Bool) : Query → Bool
  | mk selections fragments _ => everySelection check selections && everyFragment check fragments

def everySelection (check : Head → Bool) : List Selection → Bool
  | [] => true
  | .field head :: rest => check head && everySelection check rest
  | .link head query :: rest => check head && every check query && everySelection check rest

def everyFragment (check : Head → Bool) : List Fragment → Bool
  | [] => true
  | .mk _ query :: rest => every check query && everyFragment check rest

end

def isKeyed (query : Query) : Bool :=
  query.every Head.isKeyed

def isNaNFree (query : Query) : Bool :=
  query.every Head.isNaNFree

end Query

namespace Selection

def every (check : Head → Bool) : Selection → Bool
  | field head => check head
  | link head query => check head && query.every check

def agrees (selection other : Selection) : Bool :=
  selection.isLink == other.isLink && selection.head.agrees other.head

theorem every_head {check : Head → Bool} {selection : Selection}
    (passes : selection.every check = true) : check selection.head = true := by
  cases selection with
  | field head => exact passes
  | link head query =>
      simp only [every, Bool.and_eq_true] at passes
      exact passes.1

theorem every_link_iff {check : Head → Bool} {head : Head} {query : Query} :
    (link head query).every check = true ↔ check head = true ∧ query.every check = true := by
  rw [every, Bool.and_eq_true]

end Selection

namespace Query

variable {check : Head → Bool} {query : Query}

theorem everySelection_iff {selections : List Selection} :
    everySelection check selections = true ↔
      ∀ selection ∈ selections, selection.every check = true := by
  induction selections with
  | nil => simp [everySelection]
  | cons selection rest ih => cases selection <;> simp [everySelection, Selection.every, ih]

theorem everyFragment_iff {fragments : List Fragment} :
    everyFragment check fragments = true ↔
      ∀ fragment ∈ fragments, fragment.query.every check = true := by
  induction fragments with
  | nil => simp [everyFragment]
  | cons fragment rest ih =>
      obtain ⟨typeName?, inner⟩ := fragment
      simp [everyFragment, Fragment.query, ih]

theorem every_mk_iff {selections : List Selection} {fragments : List Fragment} {ordered : Bool} :
    (mk selections fragments ordered).every check = true ↔
      (∀ selection ∈ selections, selection.every check = true) ∧
        ∀ fragment ∈ fragments, fragment.query.every check = true := by
  rw [every, Bool.and_eq_true, everySelection_iff, everyFragment_iff]

end Query

/-! Equal options and directives -/

section Options

variable {options? others? lasts? : Option (Entries Value)}

theorem sameOptions_trans (same : sameOptions options? others? = true)
    (onward : sameOptions others? lasts? = true) : sameOptions options? lasts? = true := by
  cases options? <;> cases others? <;> cases lasts? <;>
    simp only [sameOptions, Bool.false_eq_true] at same onward ⊢
  exact @Value.beq_trans (.object _) (.object _) (.object _) same onward

theorem sameOptions_symm (keyed : ∀ options ∈ options?, (Value.object options).isKeyed = true)
    (keyedToo : ∀ others ∈ others?, (Value.object others).isKeyed = true)
    (same : sameOptions options? others? = true) : sameOptions others? options? = true := by
  cases options? <;> cases others? <;> simp only [sameOptions, Bool.false_eq_true] at same ⊢
  exact Value.beq_symm (keyed _ rfl) (keyedToo _ rfl) same

theorem sameOptions_refl (keyed : ∀ options ∈ options?, (Value.object options).isKeyed = true)
    (numbers : ∀ options ∈ options?, (Value.object options).isNaNFree = true) :
    sameOptions options? options? = true := by
  cases options? with
  | none => rfl
  | some options => exact Value.beq_refl (keyed _ rfl) (numbers _ rfl)

end Options

namespace Directive

variable {directive other last : Directive}

theorem beq_iff : (directive == other) = true ↔ directive.name = other.name ∧
    (Value.object directive.arguments).beq (.object other.arguments) = true := by
  change (_ && _) = true ↔ _
  rw [Bool.and_eq_true, beq_iff_eq]
  rfl

theorem beq_trans (same : (directive == other) = true) (onward : (other == last) = true) :
    (directive == last) = true := by
  rw [beq_iff] at same onward ⊢
  exact ⟨same.1.trans onward.1, Value.beq_trans same.2 onward.2⟩

theorem beq_symm (keyed : (Value.object directive.arguments).isKeyed = true)
    (keyedToo : (Value.object other.arguments).isKeyed = true)
    (same : (directive == other) = true) : (other == directive) = true := by
  rw [beq_iff] at same ⊢
  exact ⟨same.1.symm, Value.beq_symm keyed keyedToo same.2⟩

theorem beq_refl (keyed : (Value.object directive.arguments).isKeyed = true)
    (numbers : (Value.object directive.arguments).isNaNFree = true) :
    (directive == directive) = true :=
  beq_iff.mpr ⟨rfl, Value.beq_refl keyed numbers⟩

end Directive

namespace Head

variable {head other last : Head}

theorem isKeyed_options (keyed : head.isKeyed = true) :
    ∀ options ∈ head.options?, (Value.object options).isKeyed = true := by
  intro options found
  refine List.all_eq_true.mp keyed _ (List.mem_append_left _ ?_)
  exact List.mem_map.mpr ⟨options, Option.mem_toList.mpr found, rfl⟩

theorem isNaNFree_options (numbers : head.isNaNFree = true) :
    ∀ options ∈ head.options?, (Value.object options).isNaNFree = true := by
  intro options found
  refine List.all_eq_true.mp numbers _ (List.mem_append_left _ ?_)
  exact List.mem_map.mpr ⟨options, Option.mem_toList.mpr found, rfl⟩

theorem agrees_iff : head.agrees other = true ↔
    head.name = other.name ∧ sameOptions head.options? other.options? = true := by
  rw [agrees, Bool.and_eq_true, beq_iff_eq]

theorem agrees_trans (same : head.agrees other = true) (onward : other.agrees last = true) :
    head.agrees last = true := by
  rw [agrees_iff] at same onward ⊢
  exact ⟨same.1.trans onward.1, sameOptions_trans same.2 onward.2⟩

theorem agrees_symm (keyed : head.isKeyed = true) (keyedToo : other.isKeyed = true)
    (same : head.agrees other = true) : other.agrees head = true := by
  rw [agrees_iff] at same ⊢
  exact ⟨same.1.symm, sameOptions_symm (isKeyed_options keyed) (isKeyed_options keyedToo) same.2⟩

theorem agrees_refl (keyed : head.isKeyed = true) (numbers : head.isNaNFree = true) :
    head.agrees head = true :=
  agrees_iff.mpr ⟨rfl, sameOptions_refl (isKeyed_options keyed) (isNaNFree_options numbers)⟩

end Head

namespace Selection

variable {selection other last : Selection}

theorem agrees_iff : selection.agrees other = true ↔
    selection.isLink = other.isLink ∧ selection.head.agrees other.head = true := by
  rw [agrees, Bool.and_eq_true, beq_iff_eq]

theorem agrees_trans (same : selection.agrees other = true) (onward : other.agrees last = true) :
    selection.agrees last = true := by
  rw [agrees_iff] at same onward ⊢
  exact ⟨same.1.trans onward.1, Head.agrees_trans same.2 onward.2⟩

theorem agrees_symm (keyed : selection.head.isKeyed = true)
    (keyedToo : other.head.isKeyed = true) (same : selection.agrees other = true) :
    other.agrees selection = true := by
  rw [agrees_iff] at same ⊢
  exact ⟨same.1.symm, Head.agrees_symm keyed keyedToo same.2⟩

end Selection

end GraphQuery
