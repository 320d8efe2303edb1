import GraphQuery.Proofs.Op.Program
import GraphQuery.Proofs.Requirement.Exact
import GraphQuery.Proofs.Ty.Widening

/-!
Graphs that grow: what is accepted over a registry comes to the same over every registry that has
further fields in some of its records.
-/

namespace GraphQuery

namespace Typing

def withTypes (typing : Typing) (wider : Registry) : Typing :=
  ⟨wider, typing.functions⟩

def Nameless (functions : Environment) : Prop :=
  ∀ entry ∈ functions, ∀ param ∈ entry.2.params, param.isNameless = true

def Kept {α : Type} (first second : Except TypingError α) : Prop :=
  ∀ result, first = .ok result → second = .ok result

namespace Kept

variable {α : Type}

theorem refl {first : Except TypingError α} : Kept first first :=
  fun _ => id

end Kept

variable {typing : Typing} {wider : Registry} {references : References}

section Reading

variable (widens : typing.types.Widens wider)
include widens

theorem typeOf_widens (references : References) (reference : Nat) :
    (typing.typeOf references reference).Widens
      ((typing.withTypes wider).typeOf references reference) :=
  widens.resolve .refl

theorem fieldType_kept (references : References) (object : Nat) (name : String) :
    Kept (typing.fieldType references object name)
      ((typing.withTypes wider).fieldType references object name) := by
  intro ty declared
  obtain ⟨fields, record, found⟩ := fieldType_eq_ok_iff.mp declared
  have wide := typeOf_widens widens references object
  rw [record] at wide
  generalize known : (typing.withTypes wider).typeOf references object = foundToo at wide
  cases wide with
  | refl => exact fieldType_eq_ok_iff.mpr ⟨fields, known, found⟩
  | record more => exact fieldType_eq_ok_iff.mpr ⟨_, known, more name ty found⟩

theorem itemType_kept (references : References) (collection : Nat) :
    Kept (typing.itemType references collection)
      ((typing.withTypes wider).itemType references collection) := by
  intro item declared
  have wide := typeOf_widens widens references collection
  rw [itemType_eq_ok_iff.mp declared] at wide
  generalize known : (typing.withTypes wider).typeOf references collection = foundToo at wide
  cases wide with
  | refl => exact itemType_eq_ok_iff.mpr known

theorem presentReference_withTypes (references : References) (bound : Nat) :
    (typing.withTypes wider).presentReference references bound =
      typing.presentReference references bound := by
  have wide := typeOf_widens widens references bound
  unfold presentReference
  generalize typing.typeOf references bound = found at wide
  generalize (typing.withTypes wider).typeOf references bound = foundToo at wide
  cases wide with
  | _ => rfl

theorem fits_kept (references : References) (arg : Expr) (typed : Typed) {param : Ty}
    (nameless : param.isNameless = true) (mismatch : Mismatch → TypingError) :
    Kept (typing.fits references arg typed param mismatch)
      ((typing.withTypes wider).fits references arg typed param mismatch) := by
  have checked : ∀ {source sourceToo : Ty}, source.Widens sourceToo →
      Kept ((typing.types.checkType source param).mapError mismatch)
        ((wider.checkType sourceToo param).mapError mismatch) := fun wide _ passed =>
    mapError_eq_ok_iff.mpr (widens.checkType wide nameless (mapError_eq_ok_iff.mp passed))
  have same : wider.resolve param = typing.types.resolve param := by
    rw [Registry.resolve_nameless nameless, Registry.resolve_nameless nameless]
  unfold fits
  cases typed.reference? with
  | some reference => exact checked (typeOf_widens widens references reference)
  | none =>
      cases typed with
      | constant atom =>
          cases atom with
          | nil => simpa only [withTypes, same] using Kept.refl
          | _ => exact checked .refl
      | _ => exact .refl

theorem Fits.kept {typed : Typed} {param : Ty} (fits : Fits typing references typed param)
    (nameless : param.isNameless = true) :
    Fits (typing.withTypes wider) references typed param := by
  obtain ⟨arg, mismatch, passed⟩ := fits
  exact ⟨arg, mismatch, fits_kept widens references arg typed nameless mismatch () passed⟩

end Reading

mutual

theorem Accepts.kept {scope : Scope} {expr : Expr} {references final : References}
    {typed : Typed} (widens : typing.types.Widens wider) (nameless : Nameless typing.functions) :
    typing.Accepts scope expr references typed final →
      (typing.withTypes wider).Accepts scope expr references typed final
  | .symbol found => .symbol found
  | .constant => .constant
  | .list items => .list (items.kept widens nameless)
  | .map entries => .map (entries.kept widens nameless)
  | .get labelled object own field =>
      .get labelled (object.kept widens nameless) own (fieldType_kept widens _ _ _ _ field)
  | .each collection own item body =>
      .each (collection.kept widens nameless) own (itemType_kept widens _ _ _ item)
        (body.kept widens nameless)
  | .ifElse test yes no =>
      .ifElse (test.kept widens nameless) (yes.kept widens nameless) (no.kept widens nameless)
  | .ifSome bound own present yes no =>
      .ifSome (bound.kept widens nameless) own
        ((presentReference_withTypes widens _ _).trans present) (yes.kept widens nameless)
        (no.kept widens nameless)
  | .call ordinary known args => by
      have namelessParams := nameless _ (Entries.mem_of_find? known)
      exact .call ordinary known (args.kept widens nameless namelessParams)

theorem AcceptsList.kept {scope : Scope} {items : List Expr} {references final : References}
    {typed : List Typed} (widens : typing.types.Widens wider)
    (nameless : Nameless typing.functions) :
    typing.AcceptsList scope items references typed final →
      (typing.withTypes wider).AcceptsList scope items references typed final
  | .nil => .nil
  | .cons item rest => .cons (item.kept widens nameless) (rest.kept widens nameless)

theorem AcceptsEntries.kept {scope : Scope} {entries : List (Expr × Expr)}
    {references final : References} {typed : List (String × Typed)}
    (widens : typing.types.Widens wider) (nameless : Nameless typing.functions) :
    typing.AcceptsEntries scope entries references typed final →
      (typing.withTypes wider).AcceptsEntries scope entries references typed final
  | .nil => .nil
  | .cons value rest => .cons (value.kept widens nameless) (rest.kept widens nameless)

theorem AcceptsArgs.kept {scope : Scope} {args : List Expr} {params : List Ty}
    {references final : References} {typed : List Typed} (widens : typing.types.Widens wider)
    (nameless : Nameless typing.functions)
    (namelessParams : ∀ param ∈ params, param.isNameless = true) :
    typing.AcceptsArgs scope args params references typed final →
      (typing.withTypes wider).AcceptsArgs scope args params references typed final
  | .nil => .nil
  | .cons arg fits rest => by
      obtain ⟨namelessParam, namelessRest⟩ := List.forall_mem_cons.mp namelessParams
      exact .cons (arg.kept widens nameless) (fits.kept widens namelessParam)
        (rest.kept widens nameless namelessRest)

end

/-- What is accepted comes to the same with further fields in the records of a registry. -/
theorem check_kept (widens : typing.types.Widens wider) (nameless : Nameless typing.functions)
    (roots : List (String × Ty)) (expr : Expr) :
    Kept (typing.check roots expr) ((typing.withTypes wider).check roots expr) :=
  fun _ accepted => check_eq_ok_iff.mpr ((check_eq_ok_iff.mp accepted).kept widens nameless)

end Typing

/-! Requirements of what is accepted -/

namespace Requirement

variable {types wider : Registry}

theorem ofReference_widens (widens : types.Widens wider) (references : References)
    (reference : Nat) (below? : Option Query) :
    ofReference wider references reference below? =
      ofReference types references reference below? := by
  have same : wrap wider = wrap types := by
    funext below? reference
    rw [wrap, wrap, widens.isLink_eq]
  rw [ofReference, ofReference, same]

theorem ofTyped_widens (widens : types.Widens wider) (references : References) (typed : Typed) :
    ofTyped wider references typed = ofTyped types references typed := by
  unfold ofTyped
  cases typed.reference? with
  | none => rfl
  | some reference => exact ofReference_widens widens references reference none

mutual

theorem collect_widens (widens : types.Widens wider) (references : References) :
    ∀ typed, collect wider references typed = collect types references typed
  | .symbol _ _ => ofTyped_widens widens references _
  | .constant _ => rfl
  | .get _ object _ => by
      rw [collect, collect, ofTyped_widens widens, collect_widens widens references object]
  | .each _ collection body => by
      rw [collect, collect, ofReference_widens widens,
        collect_widens widens references collection, collect_widens widens references body]
  | .ifElse test yes no => by
      rw [collect, collect, collect_widens widens references test,
        collect_widens widens references yes, collect_widens widens references no]
  | .ifSome _ bound yes no => by
      rw [collect, collect, ofReference_widens widens, collect_widens widens references bound,
        collect_widens widens references yes, collect_widens widens references no]
  | .call _ params args => by rw [collect, collect, collectArgs_widens widens references args]
  | .list items => by rw [collect, collect, collectList_widens widens references items]
  | .map entries => by rw [collect, collect, collectEntries_widens widens references entries]

theorem collectArgs_widens (widens : types.Widens wider) (references : References) :
    ∀ args params, collectArgs wider references args params =
      collectArgs types references args params
  | [], _ => rfl
  | _ :: _, [] => rfl
  | arg :: args, param :: params => by
      simp only [collectArgs, ofReference_widens widens, collect_widens widens references arg,
        collectArgs_widens widens references args params]

theorem collectList_widens (widens : types.Widens wider) (references : References) :
    ∀ items, collectList wider references items = collectList types references items
  | [] => rfl
  | item :: rest => by
      rw [collectList, collectList, collect_widens widens references item,
        collectList_widens widens references rest]

theorem collectEntries_widens (widens : types.Widens wider) (references : References) :
    ∀ entries, collectEntries wider references entries = collectEntries types references entries
  | [] => rfl
  | (_, value) :: rest => by
      rw [collectEntries, collectEntries, collect_widens widens references value,
        collectEntries_widens widens references rest]

end

end Requirement

/--
Graphs can grow. Where records of a registry are given further fields, all else staying as it is,
and no function mentions a name in its parameters, an accepted expression is accepted as the same
checked expression, requires the same, and compiles to the same program.
-/
theorem Checked.check_widened {typing : Typing} {wider : Registry} {roots : List (String × Ty)}
    {expr : Expr} {checked : Checked} (widens : typing.types.Widens wider)
    (nameless : Typing.Nameless typing.functions)
    (accepted : typing.check roots expr = .ok checked) :
    ∃ checkedToo, (typing.withTypes wider).check roots expr = .ok checkedToo ∧
      checkedToo = checked ∧ checkedToo.requirements wider = checked.requirements typing.types ∧
      ∀ options, ∃ program, checked.compile options = .ok program ∧
        checkedToo.compile options = .ok program := by
  have acceptedToo := Typing.check_kept widens nameless roots expr checked accepted
  refine ⟨checked, acceptedToo, rfl, ?_, fun options => ?_⟩
  · rw [Checked.requirements, Checked.requirements, Requirement.collect_widens widens]
  · obtain ⟨program, compiled, _⟩ := Checked.compile_runs accepted options
    exact ⟨program, compiled, compiled⟩

def Registry.datedCatalog : Registry :=
  ⟨[("Author", .record [("born", .integer), ("name", .string)]),
    ("Book", .record [("authors", .sequence (.named .type "Author")), ("title", .string),
      ("reviews", .sequence (.named .type "Review"))])]⟩

theorem Checked.check_widened_credits : Registry.catalog.Widens .datedCatalog ∧
    Typing.Nameless [("credit", .credit)] ∧
    Typing.check ⟨.catalog, [("credit", .credit)]⟩ [("this", .named .type "Book")] .credits =
      .ok .credits ∧
    Typing.check ⟨.datedCatalog, [("credit", .credit)]⟩ [("this", .named .type "Book")] .credits =
      .ok .credits ∧
    Checked.credits.requirements .datedCatalog = Checked.credits.requirements .catalog := by
  have author : Ty.Widens (.record [("name", .string)])
      (.record [("born", .integer), ("name", .string)]) := by
    refine .record fun name ty found => ?_
    obtain ⟨rfl, rfl⟩ : name = "name" ∧ ty = .string := by
      simpa using Entries.mem_of_find? found
    rfl
  have book : Ty.Widens (.record [("authors", .sequence (.named .type "Author")),
      ("title", .string)]) (.record [("authors", .sequence (.named .type "Author")),
        ("title", .string), ("reviews", .sequence (.named .type "Review"))]) := by
    refine .record fun name ty found => ?_
    rcases List.mem_cons.mp (Entries.mem_of_find? found) with same | same
    · obtain ⟨rfl, rfl⟩ := Prod.mk.inj same
      rfl
    · obtain ⟨rfl, rfl⟩ := Prod.mk.inj (List.mem_singleton.mp same)
      rfl
  have widens : Registry.catalog.Widens .datedCatalog :=
    .cons ⟨rfl, author⟩ (.cons ⟨rfl, book⟩ .nil)
  have nameless : Typing.Nameless [("credit", .credit)] :=
    List.forall_mem_singleton.mpr (List.forall_mem_singleton.mpr rfl)
  have accepted : Typing.check ⟨.catalog, [("credit", .credit)]⟩ [("this", .named .type "Book")]
    .credits = .ok .credits := rfl
  obtain ⟨_, acceptedToo, rfl, requires, _⟩ := Checked.check_widened widens nameless accepted
  exact ⟨widens, nameless, accepted, acceptedToo, requires⟩

end GraphQuery
