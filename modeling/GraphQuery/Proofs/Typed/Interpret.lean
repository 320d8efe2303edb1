import GraphQuery.Op.Compile
import GraphQuery.Op.Eval

/-!
A reference interpreter of checked expressions. It knows no slots: names stand in a stack of
bindings, and every attribute is read from the value of its evaluated object.
-/

namespace GraphQuery

abbrev Bindings := List (String × Value)

namespace Bindings

def read (bindings : Bindings) (context : Value) (name : String) : Except EvalError Value :=
  match bindings.lookup name with
  | some value => .ok value
  | none => context.readContext name

def ofArguments (this : Value) (options : List String) (values : List Value) : Bindings :=
  ((thisName, this) :: options.zip values).reverse

variable {options : List String} {values : List Value} {name : String}

theorem lookup_options_eq_none (free : name ∉ options) :
    (options.zip values).reverse.lookup name = none := by
  rw [List.lookup_eq_none_iff]
  intro entry member
  have option := (List.of_mem_zip (List.mem_reverse.mp member)).1
  refine bne_iff_ne.mpr ?_
  rintro rfl
  exact free option

theorem lookup_this (free : thisName ∉ options) (this : Value) :
    (ofArguments this options values).lookup thisName = some this := by
  rw [ofArguments, List.reverse_cons, List.lookup_append, lookup_options_eq_none free]
  simp

theorem lookup_option (counted : values.length = options.length) (option : name ∈ options) :
    ∃ value, ∀ this, (ofArguments this options values).lookup name = some value := by
  cases found : (options.zip values).reverse.lookup name with
  | some value =>
      refine ⟨value, fun this => ?_⟩
      rw [ofArguments, List.reverse_cons, List.lookup_append, found, Option.some_or]
  | none =>
      rw [← List.map_fst_zip (Nat.le_of_eq counted.symm)] at option
      obtain ⟨entry, member, rfl⟩ := List.mem_map.mp option
      have absent := List.lookup_eq_none_iff.mp found entry (List.mem_reverse.mpr member)
      simp at absent

theorem lookup_free (free : name ∉ options) (different : name ≠ thisName) (this : Value) :
    (ofArguments this options values).lookup name = none := by
  have other : (name == thisName) = false := beq_eq_false_iff_ne.mpr different
  rw [ofArguments, List.reverse_cons, List.lookup_append, lookup_options_eq_none free,
    Option.none_or, List.lookup_cons, other, List.lookup_nil]

end Bindings

namespace Typed

mutual

def interpret (environment : Environment) (context : Value) :
    Typed → Bindings → Except EvalError Value
  | symbol _ name, bindings => bindings.read context name
  | constant atom, _ => .ok atom.value
  | get _ object name, bindings => do
      let value ← interpret environment context object bindings
      value.readAttribute name
  | each binder collection body, bindings => do
      match ← interpret environment context collection bindings with
      | .list items => do
          let values ← items.mapM fun item =>
            interpret environment context body ((binder.name, item) :: bindings)
          .ok (.list values)
      | value => .error (.notAList value.kind)
  | ifElse test yes no, bindings => do
      let value ← interpret environment context test bindings
      if value.isTruthy then interpret environment context yes bindings
      else interpret environment context no bindings
  | ifSome binder bound yes no, bindings => do
      match ← interpret environment context bound bindings with
      | .null => interpret environment context no bindings
      | value => interpret environment context yes ((binder.name, value) :: bindings)
  | call name _ args, bindings =>
      match environment.find? name with
      | none => .error (.undefinedFunction name)
      | some function => do
          let values ← interpretList environment context args bindings
          function.apply name values
  | list items, bindings => do
      let values ← interpretList environment context items bindings
      .ok (.list values)
  | map entries, bindings => do
      let values ← interpretEntries environment context entries bindings
      .ok (.ofPairs values)

def interpretList (environment : Environment) (context : Value) :
    List Typed → Bindings → Except EvalError (List Value)
  | [], _ => .ok []
  | typed :: rest, bindings => do
      let value ← interpret environment context typed bindings
      let values ← interpretList environment context rest bindings
      .ok (value :: values)

def interpretEntries (environment : Environment) (context : Value) :
    List (String × Typed) → Bindings → Except EvalError (List (String × Value))
  | [], _ => .ok []
  | (key, typed) :: rest, bindings => do
      let value ← interpret environment context typed bindings
      let values ← interpretEntries environment context rest bindings
      .ok ((key, value) :: values)

end

end Typed

def Checked.interpret (checked : Checked) (environment : Environment) (this context : Value)
    (options : List String) (values : List Value) : Except EvalError Value :=
  checked.root.interpret environment context (.ofArguments this options values)

end GraphQuery
