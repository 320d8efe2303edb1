import GraphQuery.Typed.Check
import Mathlib.Data.List.Forall2

/-!
Renaming the variable that an `each` or an `if_some` binds. To a name that the expression does not
use, this gives an expression that is the same but for the names that it binds.
-/

namespace GraphQuery

abbrev Renaming := List (String × String)

namespace Renaming

/-- A name stands for another one if they have the same innermost binding, or are one name that is
not bound. -/
def Maps : Renaming → String → String → Prop
  | [], name, other => name = other
  | (bound, boundToo) :: outer, name, other =>
      (name = bound ∧ other = boundToo) ∨
        (name ≠ bound ∧ other ≠ boundToo ∧ Maps outer name other)

def Reflexive (names : Renaming) : Prop :=
  ∀ name, names.Maps name name

variable {names : Renaming} {name other bound : String}

theorem Maps.under (maps : names.Maps name other) (same : name = bound ↔ other = bound) :
    Maps ((bound, bound) :: names) name other := by
  by_cases inner : name = bound
  · exact .inl ⟨inner, same.mp inner⟩
  · exact .inr ⟨inner, fun innerToo => inner (same.mpr innerToo), maps⟩

theorem Maps.under_self (maps : name ≠ bound → names.Maps name name) :
    Maps ((bound, bound) :: names) name name := by
  by_cases inner : name = bound
  · exact .inl ⟨inner, inner⟩
  · exact .inr ⟨inner, inner, maps inner⟩

theorem Reflexive.under (same : names.Reflexive) (bound : String) :
    Reflexive ((bound, bound) :: names) :=
  fun name => .under_self fun _ => same name

end Renaming

namespace Expr

mutual

def symbols : Expr → List String
  | symbol name => [name]
  | constant _ => []
  | application head args => symbols head ++ symbolsOfList args
  | list items => symbolsOfList items
  | map entries => symbolsOfEntries entries

def symbolsOfList : List Expr → List String
  | [] => []
  | item :: rest => symbols item ++ symbolsOfList rest

def symbolsOfEntries : List (Expr × Expr) → List String
  | [] => []
  | (key, value) :: rest => symbols key ++ symbols value ++ symbolsOfEntries rest

end

mutual

/--
Renames a variable where it is free. Names of functions and of attributes are no variables, and an
expression that binds the variable again keeps it.
-/
def rename (old new : String) : Expr → Expr
  | symbol name => symbol (if name = old then new else name)
  | constant atom => constant atom
  | list items => list (renameList old new items)
  | map entries => map (renameEntries old new entries)
  | application head args =>
      match head with
      | symbol function =>
          match SpecialForm.ofName? function with
          | some .get =>
              match args with
              | [object, label] => application head [rename old new object, label]
              | _ => application head args
          | some .each =>
              match args with
              | [symbol name, collection, body] =>
                  application head [symbol name, rename old new collection,
                    if name = old then body else rename old new body]
              | _ => application head args
          | some .ifSome =>
              match args with
              | [list [symbol name, bound], yes, no] =>
                  application head [list [symbol name, rename old new bound],
                    if name = old then yes else rename old new yes, rename old new no]
              | _ => application head args
          | some .ifElse => application head (renameList old new args)
          | none => application head (renameList old new args)
      | _ => application head args

def renameList (old new : String) : List Expr → List Expr
  | [] => []
  | item :: rest => rename old new item :: renameList old new rest

def renameEntries (old new : String) : List (Expr × Expr) → List (Expr × Expr)
  | [] => []
  | (key, value) :: rest => (key, rename old new value) :: renameEntries old new rest

end

/-- Renames the variable of one `each` or `if_some`, wherever it stands in an expression. -/
inductive RenamesBound (new : String) : Expr → Expr → Prop
  | each {name collection body} : RenamesBound new (.each name collection body)
      (.each new collection (body.rename name new))
  | ifSome {name bound yes no} : RenamesBound new (.ifSome name bound yes no)
      (.ifSome new bound (yes.rename name new) no)
  | inArgs {head args index arg other} : args[index]? = some arg → RenamesBound new arg other →
      RenamesBound new (.application head args) (.application head (args.set index other))
  | inList {items index item other} : items[index]? = some item → RenamesBound new item other →
      RenamesBound new (.list items) (.list (items.set index other))
  | inMap {entries index key value other} : entries[index]? = some (key, value) →
      RenamesBound new value other →
      RenamesBound new (.map entries) (.map (entries.set index (key, other)))

inductive WellFormed : Expr → Prop
  | symbol {name} : WellFormed (.symbol name)
  | constant {atom} : WellFormed (.constant atom)
  | list {items} : (∀ item ∈ items, WellFormed item) → WellFormed (.list items)
  | map {entries} : (∀ entry ∈ entries, ∃ name, entry.1 = keyword name) →
      (∀ entry ∈ entries, WellFormed entry.2) → WellFormed (.map entries)
  | get {object label name} : label.attribute? = some name → WellFormed object →
      WellFormed (.apply "get" [object, label])
  | each {name collection body} : WellFormed collection → WellFormed body →
      WellFormed (.each name collection body)
  | ifElse {test yes no} : WellFormed test → WellFormed yes → WellFormed no →
      WellFormed (.apply "if" [test, yes, no])
  | ifSome {name bound yes no} : WellFormed bound → WellFormed yes → WellFormed no →
      WellFormed (.ifSome name bound yes no)
  | call {function args} : SpecialForm.ofName? function = none →
      (∀ arg ∈ args, WellFormed arg) → WellFormed (.apply function args)

inductive Alike : Renaming → Expr → Expr → Prop
  | symbol {names name other} : names.Maps name other →
      Alike names (.symbol name) (.symbol other)
  | constant {names atom} : Alike names (.constant atom) (.constant atom)
  | list {names items others} : items.length = others.length →
      (∀ item other, (item, other) ∈ items.zip others → Alike names item other) →
      Alike names (.list items) (.list others)
  | map {names entries others} : entries.length = others.length →
      (∀ entry other, (entry, other) ∈ entries.zip others → entry.1 = other.1) →
      (∀ entry other, (entry, other) ∈ entries.zip others → Alike names entry.2 other.2) →
      Alike names (.map entries) (.map others)
  | get {names object other label} : Alike names object other →
      Alike names (.apply "get" [object, label]) (.apply "get" [other, label])
  | each {names name nameToo collection other body bodyToo} :
      Alike names collection other → Alike ((name, nameToo) :: names) body bodyToo →
      Alike names (.each name collection body) (.each nameToo other bodyToo)
  | ifElse {names test testToo yes yesToo no noToo} : Alike names test testToo →
      Alike names yes yesToo → Alike names no noToo →
      Alike names (.apply "if" [test, yes, no]) (.apply "if" [testToo, yesToo, noToo])
  | ifSome {names name nameToo bound boundToo yes yesToo no noToo} :
      Alike names bound boundToo → Alike ((name, nameToo) :: names) yes yesToo →
      Alike names no noToo →
      Alike names (.ifSome name bound yes no) (.ifSome nameToo boundToo yesToo noToo)
  | call {names function args others} : SpecialForm.ofName? function = none →
      args.length = others.length →
      (∀ arg other, (arg, other) ∈ args.zip others → Alike names arg other) →
      Alike names (.apply function args) (.apply function others)

variable {names : Renaming} {expr other : Expr} {old new name function : String} {items : List Expr}
  {entries : List (Expr × Expr)}

/-! Symbols and renaming, form by form -/

theorem mem_symbolsOfList_iff :
    name ∈ symbolsOfList items ↔ ∃ item ∈ items, name ∈ item.symbols := by
  induction items with
  | nil => simp [symbolsOfList]
  | cons item rest ih => simp [symbolsOfList, ih]

theorem mem_symbolsOfEntries_iff : name ∈ symbolsOfEntries entries ↔
    ∃ entry ∈ entries, name ∈ entry.1.symbols ∨ name ∈ entry.2.symbols := by
  induction entries with
  | nil => simp [symbolsOfEntries]
  | cons entry rest ih => simp [symbolsOfEntries, ih, or_assoc]

@[simp] theorem symbols_apply :
    (apply function items).symbols = function :: symbolsOfList items := rfl

theorem symbols_get {object label : Expr} :
    (apply "get" [object, label]).symbols = "get" :: (object.symbols ++ label.symbols) := by
  simp [symbolsOfList]

theorem symbols_each {collection body : Expr} : (each name collection body).symbols =
    "each" :: name :: (collection.symbols ++ body.symbols) := by
  simp [each, symbols, symbolsOfList]

theorem symbols_ifElse {test yes no : Expr} : (apply "if" [test, yes, no]).symbols =
    "if" :: (test.symbols ++ (yes.symbols ++ no.symbols)) := by
  simp [symbolsOfList]

theorem symbols_ifSome {bound yes no : Expr} : (ifSome name bound yes no).symbols =
    "if_some" :: name :: (bound.symbols ++ (yes.symbols ++ no.symbols)) := by
  simp [ifSome, symbols, symbolsOfList]

theorem rename_get {object label : Expr} : (apply "get" [object, label]).rename old new =
    apply "get" [object.rename old new, label] := rfl

theorem rename_each {collection body : Expr} : (each name collection body).rename old new =
    each name (collection.rename old new) (if name = old then body else body.rename old new) := rfl

theorem rename_ifElse {test yes no : Expr} : (apply "if" [test, yes, no]).rename old new =
    apply "if" [test.rename old new, yes.rename old new, no.rename old new] := rfl

theorem rename_ifSome {bound yes no : Expr} : (ifSome name bound yes no).rename old new =
    ifSome name (bound.rename old new) (if name = old then yes else yes.rename old new)
      (no.rename old new) := rfl

theorem renameList_eq_map : renameList old new items = items.map (rename old new) := by
  induction items with
  | nil => rfl
  | cons item rest ih => rw [renameList, ih, List.map_cons]

theorem renameEntries_eq_map :
    renameEntries old new entries = entries.map fun entry => (entry.1, entry.2.rename old new) := by
  induction entries with
  | nil => rfl
  | cons entry rest ih => rw [renameEntries, ih, List.map_cons]

theorem rename_call (ordinary : SpecialForm.ofName? function = none) :
    (apply function items).rename old new = apply function (items.map (rename old new)) := by
  unfold apply rename
  simp only [ordinary, renameList_eq_map]

/-! Expressions that are alike -/

namespace Alike

theorem of_list {others : List Expr} (alike : List.Forall₂ (Alike names) items others) :
    Alike names (.list items) (.list others) :=
  .list alike.length_eq fun _ _ => (List.forall₂_iff_zip.mp alike).2

theorem of_call {others : List Expr} (ordinary : SpecialForm.ofName? function = none)
    (alike : List.Forall₂ (Alike names) items others) :
    Alike names (.apply function items) (.apply function others) :=
  .call ordinary alike.length_eq fun _ _ => (List.forall₂_iff_zip.mp alike).2

theorem of_map {others : List (Expr × Expr)} (alike : List.Forall₂
    (fun entry other => entry.1 = other.1 ∧ Alike names entry.2 other.2) entries others) :
    Alike names (.map entries) (.map others) :=
  .map alike.length_eq (fun _ _ member => ((List.forall₂_iff_zip.mp alike).2 member).1)
    fun _ _ member => ((List.forall₂_iff_zip.mp alike).2 member).2

end Alike

namespace WellFormed

/-- A well-formed expression is like itself where its symbols stand for themselves. -/
theorem alike_self (formed : expr.WellFormed) (same : ∀ name ∈ expr.symbols, names.Maps name name) :
    Alike names expr expr := by
  induction formed generalizing names with
  | symbol => exact .symbol (same _ (.head _))
  | constant => exact .constant
  | @list items _ ih =>
      refine .of_list (List.forall₂_same.mpr fun item member => ih item member ?_)
      exact fun name inside => same name (mem_symbolsOfList_iff.mpr ⟨item, member, inside⟩)
  | @map entries _ _ ih =>
      refine .of_map (List.forall₂_same.mpr fun entry member => ⟨rfl, ih entry member ?_⟩)
      exact fun name inside =>
        same name (mem_symbolsOfEntries_iff.mpr ⟨entry, member, .inr inside⟩)
  | get _ _ ih =>
      simp only [symbols_get, List.forall_mem_cons, List.forall_mem_append] at same
      exact .get (ih same.2.1)
  | each _ _ ihCollection ihBody =>
      simp only [symbols_each, List.forall_mem_cons, List.forall_mem_append] at same
      obtain ⟨_, _, collection, body⟩ := same
      exact .each (ihCollection collection)
        (ihBody fun name inside => .under_self fun _ => body name inside)
  | ifElse _ _ _ ihTest ihYes ihNo =>
      simp only [symbols_ifElse, List.forall_mem_cons, List.forall_mem_append] at same
      obtain ⟨_, test, yes, no⟩ := same
      exact .ifElse (ihTest test) (ihYes yes) (ihNo no)
  | ifSome _ _ _ ihBound ihYes ihNo =>
      simp only [symbols_ifSome, List.forall_mem_cons, List.forall_mem_append] at same
      obtain ⟨_, _, bound, yes, no⟩ := same
      exact .ifSome (ihBound bound)
        (ihYes fun name inside => .under_self fun _ => yes name inside) (ihNo no)
  | @call function args ordinary _ ih =>
      refine .of_call ordinary (List.forall₂_same.mpr fun arg member => ih arg member ?_)
      exact fun name inside =>
        same name (.tail _ (mem_symbolsOfList_iff.mpr ⟨arg, member, inside⟩))

theorem alike_refl (formed : expr.WellFormed) (same : names.Reflexive) : Alike names expr expr :=
  formed.alike_self fun name _ => same name

end WellFormed

def Renames (names : Renaming) (old new : String) (expr : Expr) : Prop :=
  ∀ name ∈ expr.symbols, name ≠ new ∧ names.Maps name (if name = old then new else name)

theorem Renames.of_bound (same : names.Reflexive) (fresh : new ∉ expr.symbols) (name : String) :
    Renames ((name, new) :: names) name new expr := by
  intro other inside
  have different : other ≠ new := fun equal => fresh (equal ▸ inside)
  refine ⟨different, ?_⟩
  by_cases chosen : other = name
  · exact .inl ⟨chosen, if_pos chosen⟩
  · rw [if_neg chosen]
    exact .inr ⟨chosen, different, same other⟩

/-- Where the variable is bound again it is not renamed. -/
theorem Renames.alike_under {bound : String} (renames : Renames names old new expr)
    (fresh : bound ≠ new) (formed : expr.WellFormed)
    (renamed : ∀ inner, Renames inner old new expr → Alike inner expr (expr.rename old new)) :
    Alike ((bound, bound) :: names) expr (if bound = old then expr else expr.rename old new) := by
  split
  · rename_i same
    refine formed.alike_self fun name inside => .under_self fun different => ?_
    have kept := (renames name inside).2
    rwa [if_neg (same ▸ different)] at kept
  · rename_i different
    refine renamed _ fun name inside => ⟨(renames name inside).1, (renames name inside).2.under ?_⟩
    by_cases chosen : name = old
    · simp [chosen, Ne.symm different, Ne.symm fresh]
    · simp [chosen]

namespace WellFormed

theorem alike_rename (formed : expr.WellFormed) (renames : Renames names old new expr) :
    Alike names expr (expr.rename old new) := by
  induction formed generalizing names with
  | symbol =>
      rw [rename]
      exact .symbol (renames _ (.head _)).2
  | constant => exact .constant
  | @list items _ ih =>
      rw [rename, renameList_eq_map]
      refine .of_list (List.forall₂_map_right_iff.mpr (List.forall₂_same.mpr ?_))
      refine fun item member => ih item member fun name inside => renames name ?_
      exact mem_symbolsOfList_iff.mpr ⟨item, member, inside⟩
  | @map entries _ _ ih =>
      rw [rename, renameEntries_eq_map]
      refine .of_map (List.forall₂_map_right_iff.mpr (List.forall₂_same.mpr ?_))
      refine fun entry member => ⟨rfl, ih entry member fun name inside => renames name ?_⟩
      exact mem_symbolsOfEntries_iff.mpr ⟨entry, member, .inr inside⟩
  | get _ _ ih =>
      simp only [Renames, symbols_get, List.forall_mem_cons, List.forall_mem_append] at renames
      rw [rename_get]
      exact .get (ih renames.2.1)
  | each _ formedBody ihCollection ihBody =>
      simp only [Renames, symbols_each, List.forall_mem_cons, List.forall_mem_append] at renames
      obtain ⟨_, ⟨fresh, _⟩, collection, body⟩ := renames
      rw [rename_each]
      exact .each (ihCollection collection)
        (Renames.alike_under body fresh formedBody fun _ => ihBody)
  | ifElse _ _ _ ihTest ihYes ihNo =>
      simp only [Renames, symbols_ifElse, List.forall_mem_cons, List.forall_mem_append] at renames
      obtain ⟨_, test, yes, no⟩ := renames
      rw [rename_ifElse]
      exact .ifElse (ihTest test) (ihYes yes) (ihNo no)
  | ifSome _ formedYes _ ihBound ihYes ihNo =>
      simp only [Renames, symbols_ifSome, List.forall_mem_cons, List.forall_mem_append] at renames
      obtain ⟨_, ⟨fresh, _⟩, bound, yes, no⟩ := renames
      rw [rename_ifSome]
      exact .ifSome (ihBound bound) (Renames.alike_under yes fresh formedYes fun _ => ihYes)
        (ihNo no)
  | @call function args ordinary _ ih =>
      rw [rename_call ordinary]
      refine .of_call ordinary (List.forall₂_map_right_iff.mpr (List.forall₂_same.mpr ?_))
      refine fun arg member => ih arg member fun name inside => renames name ?_
      exact .tail _ (mem_symbolsOfList_iff.mpr ⟨arg, member, inside⟩)

end WellFormed

/-! Where a bound variable is renamed -/

theorem renamesBound_application_cases {head : Expr} {args : List Expr}
    (renames : (application head args).RenamesBound new other) :
    (∃ name collection body, application head args = each name collection body ∧
        other = each new collection (body.rename name new)) ∨
      (∃ name bound yes no, application head args = ifSome name bound yes no ∧
        other = ifSome new bound (yes.rename name new) no) ∨
      ∃ index arg argToo, args[index]? = some arg ∧ arg.RenamesBound new argToo ∧
        other = application head (args.set index argToo) := by
  generalize whole : application head args = expr at renames
  cases renames with
  | each => exact .inl ⟨_, _, _, rfl, rfl⟩
  | ifSome => exact .inr (.inl ⟨_, _, _, _, rfl, rfl⟩)
  | inArgs found renames =>
      obtain ⟨rfl, rfl⟩ := application.inj whole
      exact .inr (.inr ⟨_, _, _, found, renames, rfl⟩)
  | inList | inMap => cases whole

theorem renamesBound_apply_cases (ordinary : function ≠ "each") (ordinaryToo : function ≠ "if_some")
    (renames : (apply function items).RenamesBound new other) :
    ∃ index arg argToo, items[index]? = some arg ∧ arg.RenamesBound new argToo ∧
      other = apply function (items.set index argToo) := by
  rcases renamesBound_application_cases renames with
    ⟨_, _, _, same, _⟩ | ⟨_, _, _, _, same, _⟩ | inside
  · simp [each, apply, ordinary] at same
  · simp [ifSome, apply, ordinaryToo] at same
  · exact inside

theorem renamesBound_each_cases {collection body : Expr}
    (renames : (each name collection body).RenamesBound new other) :
    other = each new collection (body.rename name new) ∨
      (∃ renamed, collection.RenamesBound new renamed ∧ other = each name renamed body) ∨
      ∃ renamed, body.RenamesBound new renamed ∧ other = each name collection renamed := by
  rcases renamesBound_application_cases renames with ⟨_, _, _, same, rfl⟩ | ⟨_, _, _, _, same, _⟩ |
    ⟨index, arg, renamed, found, renames, rfl⟩
  · simp only [each, apply, application.injEq, List.cons.injEq, symbol.injEq] at same
    obtain ⟨_, rfl, rfl, rfl, _⟩ := same
    exact .inl rfl
  · simp [ifSome, apply] at same
  · rcases index with _ | _ | _ | index
    · obtain rfl := Option.some.inj found
      cases renames
    · obtain rfl := Option.some.inj found
      exact .inr (.inl ⟨renamed, renames, rfl⟩)
    · obtain rfl := Option.some.inj found
      exact .inr (.inr ⟨renamed, renames, rfl⟩)
    · simp at found

theorem renamesBound_ifSome_cases {bound yes no : Expr}
    (renames : (ifSome name bound yes no).RenamesBound new other) :
    other = ifSome new bound (yes.rename name new) no ∨
      (∃ renamed, bound.RenamesBound new renamed ∧ other = ifSome name renamed yes no) ∨
      (∃ renamed, yes.RenamesBound new renamed ∧ other = ifSome name bound renamed no) ∨
      ∃ renamed, no.RenamesBound new renamed ∧ other = ifSome name bound yes renamed := by
  rcases renamesBound_application_cases renames with ⟨_, _, _, same, _⟩ | ⟨_, _, _, _, same, rfl⟩ |
    ⟨index, arg, renamed, found, renames, rfl⟩
  · simp [each, apply] at same
  · simp only [ifSome, apply, application.injEq, List.cons.injEq, symbol.injEq,
      list.injEq] at same
    obtain ⟨_, ⟨rfl, rfl, _⟩, rfl, rfl, _⟩ := same
    exact .inl rfl
  · rcases index with _ | _ | _ | index
    · obtain rfl := Option.some.inj found
      cases renames with
      | @inList _ index _ renamed found renames =>
        rcases index with _ | _ | index
        · obtain rfl := Option.some.inj found
          cases renames
        · obtain rfl := Option.some.inj found
          exact .inr (.inl ⟨renamed, renames, rfl⟩)
        · simp at found
    · obtain rfl := Option.some.inj found
      exact .inr (.inr (.inl ⟨renamed, renames, rfl⟩))
    · obtain rfl := Option.some.inj found
      exact .inr (.inr (.inr ⟨renamed, renames, rfl⟩))
    · simp at found

theorem not_renamesBound_of_attribute {label : Expr} (labelled : label.attribute? = some name) :
    ¬ label.RenamesBound new other := by
  intro renames
  cases label with
  | symbol | constant => cases renames
  | application | list | map => simp [attribute?] at labelled

theorem forall₂_set {α : Type} {alike : α → α → Prop} {items : List α} {index : Nat}
    {item other : α} (same : ∀ item ∈ items, alike item item) (found : items[index]? = some item)
    (changed : alike item other) : List.Forall₂ alike items (items.set index other) := by
  induction items generalizing index with
  | nil => simp at found
  | cons first rest ih =>
      obtain ⟨head, tail⟩ := List.forall_mem_cons.mp same
      cases index with
      | zero =>
          obtain rfl := Option.some.inj found
          exact .cons changed (List.forall₂_same.mpr tail)
      | succ index => exact .cons head (ih tail found)

/-- Renaming a bound variable gives an expression that is the same but for that name. -/
theorem WellFormed.alike_of_renamesBound (formed : expr.WellFormed)
    (renames : expr.RenamesBound new other) (fresh : new ∉ expr.symbols)
    (same : names.Reflexive) : Alike names expr other := by
  induction formed generalizing names other with
  | symbol | constant => cases renames
  | @list items formed ih =>
      cases renames with
      | inList found renames =>
        have member := List.mem_of_getElem? found
        refine .of_list (forall₂_set (fun item member => (formed item member).alike_refl same)
          found (ih _ member renames (fun inside => fresh ?_) same))
        exact mem_symbolsOfList_iff.mpr ⟨_, member, inside⟩
  | @map entries _ formed ih =>
      cases renames with
      | inMap found renames =>
        have member := List.mem_of_getElem? found
        refine .of_map (forall₂_set
          (fun entry member => ⟨rfl, (formed entry member).alike_refl same⟩) found
          ⟨rfl, ih _ member renames (fun inside => fresh ?_) same⟩)
        exact mem_symbolsOfEntries_iff.mpr ⟨_, member, .inr inside⟩
  | @get object label name labelled _ ih =>
      simp only [symbols_get, List.mem_cons, List.mem_append, not_or] at fresh
      obtain ⟨index, arg, renamed, found, below, rfl⟩ :=
        renamesBound_apply_cases (by decide) (by decide) renames
      rcases index with _ | _ | index
      · obtain rfl := Option.some.inj found
        exact .get (ih below fresh.2.1 same)
      · obtain rfl := Option.some.inj found
        exact (not_renamesBound_of_attribute labelled below).elim
      · simp at found
  | @each name collection body formed formedBody ihCollection ihBody =>
      simp only [symbols_each, List.mem_cons, List.mem_append, not_or] at fresh
      obtain ⟨_, _, freshCollection, freshBody⟩ := fresh
      have alike := formed.alike_refl same
      rcases renamesBound_each_cases renames with rfl | ⟨renamed, below, rfl⟩ |
        ⟨renamed, below, rfl⟩
      · exact .each alike (formedBody.alike_rename (.of_bound same freshBody name))
      · exact .each (ihCollection below freshCollection same)
          (formedBody.alike_refl (same.under name))
      · exact .each alike (ihBody below freshBody (same.under name))
  | @ifElse test yes no formed formedYes formedNo ihTest ihYes ihNo =>
      simp only [symbols_ifElse, List.mem_cons, List.mem_append, not_or] at fresh
      obtain ⟨_, freshTest, freshYes, freshNo⟩ := fresh
      have alike := formed.alike_refl same
      have alikeYes := formedYes.alike_refl same
      have alikeNo := formedNo.alike_refl same
      obtain ⟨index, arg, renamed, found, below, rfl⟩ :=
        renamesBound_apply_cases (by decide) (by decide) renames
      rcases index with _ | _ | _ | index
      · obtain rfl := Option.some.inj found
        exact .ifElse (ihTest below freshTest same) alikeYes alikeNo
      · obtain rfl := Option.some.inj found
        exact .ifElse alike (ihYes below freshYes same) alikeNo
      · obtain rfl := Option.some.inj found
        exact .ifElse alike alikeYes (ihNo below freshNo same)
      · simp at found
  | @ifSome name bound yes no formed formedYes formedNo ihBound ihYes ihNo =>
      simp only [symbols_ifSome, List.mem_cons, List.mem_append, not_or] at fresh
      obtain ⟨_, _, freshBound, freshYes, freshNo⟩ := fresh
      have alike := formed.alike_refl same
      have alikeYes := formedYes.alike_refl (same.under name)
      have alikeNo := formedNo.alike_refl same
      rcases renamesBound_ifSome_cases renames with rfl | ⟨renamed, below, rfl⟩ |
        ⟨renamed, below, rfl⟩ | ⟨renamed, below, rfl⟩
      · exact .ifSome alike (formedYes.alike_rename (.of_bound same freshYes name)) alikeNo
      · exact .ifSome (ihBound below freshBound same) alikeYes alikeNo
      · exact .ifSome alike (ihYes below freshYes (same.under name)) alikeNo
      · exact .ifSome alike alikeYes (ihNo below freshNo same)
  | @call function args ordinary formed ih =>
      have plain : function ≠ "each" ∧ function ≠ "if_some" := by
        refine ⟨?_, ?_⟩ <;> rintro rfl <;> exact nomatch ordinary
      obtain ⟨index, arg, renamed, found, below, rfl⟩ :=
        renamesBound_apply_cases plain.1 plain.2 renames
      have member := List.mem_of_getElem? found
      refine .of_call ordinary (forall₂_set
        (fun arg member => (formed arg member).alike_refl same) found
        (ih arg member below (fun inside => fresh ?_) same))
      exact .tail _ (mem_symbolsOfList_iff.mpr ⟨arg, member, inside⟩)

end Expr

end GraphQuery
