import GraphQuery.Proofs.Except
import GraphQuery.Proofs.Reference.Arena
import GraphQuery.Typed.Check

/-!
How the checker comes to accept an expression: one rule for each form that it accepts. It leads from
the table of references before the expression to the one behind it.
-/

namespace GraphQuery

namespace SpecialForm

theorem eq_name_of_ofName? {name : String} {form : SpecialForm} (found : ofName? name = some form) :
    name = form.name := by
  have same := List.find?_some found
  exact (beq_iff_eq.mp same).symm

end SpecialForm

namespace Typing

section Rules

variable (typing : Typing)

def Fits (references : References) (typed : Typed) (param : Ty) : Prop :=
  ∃ arg mismatch, typing.fits references arg typed param mismatch = .ok ()

mutual

inductive Accepts : Scope → Expr → References → Typed → References → Prop
  | symbol {scope references name reference} : scope.lookup name = some reference →
      Accepts scope (.symbol name) references (.symbol reference name) references
  | constant {scope references atom} :
      Accepts scope (.constant atom) references (.constant atom) references
  | list {scope references final items typed} :
      AcceptsList scope items references typed final →
      Accepts scope (.list items) references (.list typed) final
  | map {scope references final entries typed} :
      AcceptsEntries scope entries references typed final →
      Accepts scope (.map entries) references (.map typed) final
  | get {scope references middle object label name typed back ty} :
      label.attribute? = some name → Accepts scope object references typed middle →
      typed.reference? = some back → typing.fieldType middle back name = .ok ty →
      Accepts scope (.apply "get" [object, label]) references (.get middle.size typed name)
        (middle.addLabelled back name ty).1
  | each {scope references middle final name collection body typed typedBody back ty} :
      Accepts scope collection references typed middle → typed.reference? = some back →
      typing.itemType middle back = .ok ty →
      Accepts ((name, middle.size) :: scope) body (middle.addUnlabelled back ty).1 typedBody
        final →
      Accepts scope (.each name collection body) references
        (.each ⟨name, middle.size⟩ typed typedBody) final
  | ifElse {scope references second third final test yes no typed typedYes typedNo} :
      Accepts scope test references typed second → Accepts scope yes second typedYes third →
      Accepts scope no third typedNo final →
      Accepts scope (.apply "if" [test, yes, no]) references (.ifElse typed typedYes typedNo) final
  | ifSome {scope references second third fourth final name reference bound yes no typed typedYes
      typedNo back} :
      Accepts scope bound references typed second → typed.reference? = some back →
      typing.presentReference second back = (third, reference) →
      Accepts ((name, reference) :: scope) yes third typedYes fourth →
      Accepts scope no fourth typedNo final →
      Accepts scope (.ifSome name bound yes no) references
        (.ifSome ⟨name, reference⟩ typed typedYes typedNo) final
  | call {scope references final function found args typed} :
      SpecialForm.ofName? function = none → typing.functions.find? function = some found →
      AcceptsArgs scope args found.params references typed final →
      Accepts scope (.apply function args) references (.call function found.params typed) final

inductive AcceptsList : Scope → List Expr → References → List Typed → References → Prop
  | nil {scope references} : AcceptsList scope [] references [] references
  | cons {scope references middle final item rest typed typedRest} :
      Accepts scope item references typed middle →
      AcceptsList scope rest middle typedRest final →
      AcceptsList scope (item :: rest) references (typed :: typedRest) final

inductive AcceptsEntries :
    Scope → List (Expr × Expr) → References → List (String × Typed) → References → Prop
  | nil {scope references} : AcceptsEntries scope [] references [] references
  | cons {scope references middle final name value rest typed typedRest} :
      Accepts scope value references typed middle →
      AcceptsEntries scope rest middle typedRest final →
      AcceptsEntries scope ((.keyword name, value) :: rest) references ((name, typed) :: typedRest)
        final

inductive AcceptsArgs :
    Scope → List Expr → List Ty → References → List Typed → References → Prop
  | nil {scope references} : AcceptsArgs scope [] [] references [] references
  | cons {scope references middle final arg args param params typed typedRest} :
      Accepts scope arg references typed middle → Fits typing middle typed param →
      AcceptsArgs scope args params middle typedRest final →
      AcceptsArgs scope (arg :: args) (param :: params) references (typed :: typedRest) final

end

end Rules

variable {typing : Typing}

theorem referenceOf_eq_ok_iff {expr : Expr} {typed : Typed} {reference : Nat} :
    referenceOf expr typed = .ok reference ↔ typed.reference? = some reference := by
  simp only [referenceOf]
  cases typed.reference? <;> simp

/-- Neither the expression of an argument nor its place matters for whether it fits. -/
theorem Fits.passes {references : References} {typed : Typed} {param : Ty}
    (fits : Fits typing references typed param) (arg : Expr) (mismatch : Mismatch → TypingError) :
    typing.fits references arg typed param mismatch = .ok () := by
  obtain ⟨argToo, mismatchToo, passed⟩ := fits
  unfold Typing.fits at passed ⊢
  cases own : typed.reference? with
  | some reference =>
      simp only [own] at passed ⊢
      exact mapError_eq_ok_iff.mpr (mapError_eq_ok_iff.mp passed)
  | none =>
      simp only [own] at passed ⊢
      split at passed
      · split at passed <;> simp_all
      · exact mapError_eq_ok_iff.mpr (mapError_eq_ok_iff.mp passed)
      · split at passed <;> simp_all

theorem AcceptsArgs.length_eq {scope : Scope} {args : List Expr} {params : List Ty}
    {references final : References} {typed : List Typed} :
    typing.AcceptsArgs scope args params references typed final →
      params.length = args.length ∧ params.length = typed.length
  | .nil => ⟨rfl, rfl⟩
  | .cons _ _ rest => by
      obtain ⟨length, lengthToo⟩ := rest.length_eq
      exact ⟨congrArg (· + 1) length, congrArg (· + 1) lengthToo⟩

/-! The rules are the checker's -/

theorem accepts_of_visit_all (typing : Typing) :
    (∀ scope expr references typed final, typing.visit scope expr references = .ok (typed, final) →
      typing.Accepts scope expr references typed final) ∧
    (∀ scope function index args params references typed final, args.length = params.length →
      typing.visitArgs scope function index args params references = .ok (typed, final) →
      typing.AcceptsArgs scope args params references typed final) ∧
    (∀ scope entries references typed final,
      typing.visitEntries scope entries references = .ok (typed, final) →
      typing.AcceptsEntries scope entries references typed final) ∧
    (∀ scope items references typed final,
      typing.visitList scope items references = .ok (typed, final) →
      typing.AcceptsList scope items references typed final) := by
  -- the cases are those of the checker's recursion; the ones behind `key` are those that fail
  refine Typing.visit.mutual_induct typing _ _ _ _ ?symbol ?unknownSymbol ?constant ?list ?map
    ?get ?getLabel ?getArgs ?each ?eachArgs ?ifElse ?ifElseArgs ?ifSome ?ifSomeArgs
    ?unknownFunction ?call ?arity ?head ?arg ?noArg ?noItem ?item ?noEntry ?entry ?key
  case symbol =>
    intro scope name references reference found typed final visited
    simp only [Typing.visit, found] at visited
    obtain ⟨rfl, rfl⟩ := Prod.mk.inj (Except.ok.inj visited)
    exact .symbol found
  case constant =>
    intro scope atom references typed final visited
    simp only [Typing.visit] at visited
    obtain ⟨rfl, rfl⟩ := Prod.mk.inj (Except.ok.inj visited)
    exact .constant
  case list =>
    intro scope items references ih typed final visited
    simp only [Typing.visit] at visited
    obtain ⟨⟨typedItems, middle⟩, visitedItems, made⟩ := bind_eq_ok_iff.mp visited
    obtain ⟨rfl, rfl⟩ := Prod.mk.inj (Except.ok.inj made)
    exact .list (ih _ _ visitedItems)
  case map =>
    intro scope entries references ih typed final visited
    simp only [Typing.visit] at visited
    obtain ⟨⟨typedEntries, middle⟩, visitedEntries, made⟩ := bind_eq_ok_iff.mp visited
    obtain ⟨rfl, rfl⟩ := Prod.mk.inj (Except.ok.inj made)
    exact .map (ih _ _ visitedEntries)
  case get =>
    intro scope references function form object label name labelled ih typed final visited
    obtain rfl := SpecialForm.eq_name_of_ofName? form
    unfold Typing.visit at visited
    simp only [form, labelled] at visited
    obtain ⟨⟨typedObject, middle⟩, visitedObject, onward⟩ := bind_eq_ok_iff.mp visited
    obtain ⟨back, own, onward⟩ := bind_eq_ok_iff.mp onward
    obtain ⟨ty, field, made⟩ := bind_eq_ok_iff.mp onward
    obtain ⟨rfl, rfl⟩ := Prod.mk.inj (Except.ok.inj made)
    exact .get labelled (ih _ _ visitedObject) (referenceOf_eq_ok_iff.mp own) field
  case each =>
    intro scope references function form name collection body ih ihBody typed final visited
    obtain rfl := SpecialForm.eq_name_of_ofName? form
    unfold Typing.visit at visited
    simp only [form] at visited
    obtain ⟨⟨typedCollection, middle⟩, visitedCollection, onward⟩ := bind_eq_ok_iff.mp visited
    obtain ⟨back, own, onward⟩ := bind_eq_ok_iff.mp onward
    obtain ⟨ty, item, onward⟩ := bind_eq_ok_iff.mp onward
    obtain ⟨⟨typedBody, last⟩, visitedBody, made⟩ := bind_eq_ok_iff.mp onward
    obtain ⟨rfl, rfl⟩ := Prod.mk.inj (Except.ok.inj made)
    exact .each (ih _ _ visitedCollection) (referenceOf_eq_ok_iff.mp own) item
      (ihBody _ _ _ _ visitedBody)
  case ifElse =>
    intro scope references function form test yes no ihTest ihYes ihNo typed final visited
    obtain rfl := SpecialForm.eq_name_of_ofName? form
    unfold Typing.visit at visited
    simp only [form] at visited
    obtain ⟨⟨typedTest, second⟩, visitedTest, onward⟩ := bind_eq_ok_iff.mp visited
    obtain ⟨⟨typedYes, third⟩, visitedYes, onward⟩ := bind_eq_ok_iff.mp onward
    obtain ⟨⟨typedNo, last⟩, visitedNo, made⟩ := bind_eq_ok_iff.mp onward
    obtain ⟨rfl, rfl⟩ := Prod.mk.inj (Except.ok.inj made)
    exact .ifElse (ihTest _ _ visitedTest) (ihYes _ _ _ visitedYes) (ihNo _ _ _ visitedNo)
  case ifSome =>
    intro scope references function form name bound yes no ih ihYes ihNo typed final visited
    obtain rfl := SpecialForm.eq_name_of_ofName? form
    unfold Typing.visit at visited
    simp only [form] at visited
    obtain ⟨⟨typedBound, second⟩, visitedBound, onward⟩ := bind_eq_ok_iff.mp visited
    obtain ⟨back, own, onward⟩ := bind_eq_ok_iff.mp onward
    obtain ⟨⟨typedYes, fourth⟩, visitedYes, onward⟩ := bind_eq_ok_iff.mp onward
    obtain ⟨⟨typedNo, last⟩, visitedNo, made⟩ := bind_eq_ok_iff.mp onward
    obtain ⟨rfl, rfl⟩ := Prod.mk.inj (Except.ok.inj made)
    exact .ifSome (ih _ _ visitedBound) (referenceOf_eq_ok_iff.mp own) rfl
      (ihYes _ _ _ _ visitedYes) (ihNo _ _ _ visitedNo)
  case call =>
    intro scope args references function ordinary found known arity ih typed final visited
    unfold Typing.visit at visited
    simp only [ordinary, known, arity, if_true] at visited
    obtain ⟨⟨typedArgs, last⟩, visitedArgs, made⟩ := bind_eq_ok_iff.mp visited
    obtain ⟨rfl, rfl⟩ := Prod.mk.inj (Except.ok.inj made)
    exact .call ordinary known (ih _ _ arity.symm visitedArgs)
  case arg =>
    intro scope function index arg args param params references ih ihRest typed final arity visited
    unfold Typing.visitArgs at visited
    obtain ⟨⟨typedArg, middle⟩, visitedArg, onward⟩ := bind_eq_ok_iff.mp visited
    obtain ⟨_, passed, onward⟩ := bind_eq_ok_iff.mp onward
    obtain ⟨⟨typedRest, last⟩, visitedRest, made⟩ := bind_eq_ok_iff.mp onward
    obtain ⟨rfl, rfl⟩ := Prod.mk.inj (Except.ok.inj made)
    exact .cons (ih _ _ visitedArg) ⟨arg, _, passed⟩
      (ihRest _ _ _ (Nat.succ.inj arity) visitedRest)
  case noArg =>
    intro args scope function index params references uneven typed final arity visited
    cases args with
    | nil =>
        obtain rfl := List.length_eq_zero_iff.mp arity.symm
        obtain ⟨rfl, rfl⟩ := Prod.mk.inj (Except.ok.inj visited)
        exact .nil
    | cons arg args =>
        obtain ⟨param, params, rfl⟩ := List.exists_cons_of_length_eq_add_one arity.symm
        exact (uneven arg args param params rfl rfl).elim
  case noItem =>
    intro scope references typed final visited
    obtain ⟨rfl, rfl⟩ := Prod.mk.inj (Except.ok.inj visited)
    exact .nil
  case item =>
    intro scope item rest references ih ihRest typed final visited
    unfold Typing.visitList at visited
    obtain ⟨⟨typedItem, middle⟩, visitedItem, onward⟩ := bind_eq_ok_iff.mp visited
    obtain ⟨⟨typedRest, last⟩, visitedRest, made⟩ := bind_eq_ok_iff.mp onward
    obtain ⟨rfl, rfl⟩ := Prod.mk.inj (Except.ok.inj made)
    exact .cons (ih _ _ visitedItem) (ihRest _ _ _ visitedRest)
  case noEntry =>
    intro scope references typed final visited
    obtain ⟨rfl, rfl⟩ := Prod.mk.inj (Except.ok.inj visited)
    exact .nil
  case entry =>
    intro scope value rest references name ih ihRest typed final visited
    unfold Typing.visitEntries at visited
    obtain ⟨⟨typedValue, middle⟩, visitedValue, onward⟩ := bind_eq_ok_iff.mp visited
    obtain ⟨⟨typedRest, last⟩, visitedRest, made⟩ := bind_eq_ok_iff.mp onward
    obtain ⟨rfl, rfl⟩ := Prod.mk.inj (Except.ok.inj made)
    exact .cons (ih _ _ visitedValue) (ihRest _ _ _ visitedRest)
  case key =>
    intro scope key value rest references other typed final visited
    unfold Typing.visitEntries at visited
    simp only at visited
    cases visited
  case unknownSymbol =>
    intro scope name references missing typed final visited
    simp only [Typing.visit, missing] at visited
    cases visited
  case getLabel =>
    intro scope references function form object label unlabelled typed final visited
    unfold Typing.visit at visited
    simp only [form, unlabelled] at visited
    cases visited
  case getArgs | eachArgs | ifElseArgs | ifSomeArgs =>
    intro scope args references function form other typed final visited
    unfold Typing.visit at visited
    simp only [form] at visited
    cases visited
  case unknownFunction =>
    intro scope args references function ordinary unknown typed final visited
    unfold Typing.visit at visited
    simp only [ordinary, unknown] at visited
    cases visited
  case arity =>
    intro scope args references function ordinary found known uneven typed final visited
    unfold Typing.visit at visited
    simp only [ordinary, known, uneven, if_false] at visited
    cases visited
  case head =>
    intro scope head args references other typed final visited
    unfold Typing.visit at visited
    cases head with
    | symbol function => exact (other function rfl).elim
    | _ => cases visited

mutual

theorem Accepts.visit {scope : Scope} {expr : Expr} {references final : References}
    {typed : Typed} : typing.Accepts scope expr references typed final →
      typing.visit scope expr references = .ok (typed, final)
  | .symbol found => by simp only [Typing.visit, found]
  | .constant => by rw [Typing.visit]
  | .list items => by rw [Typing.visit, items.visitList, ok_bind]
  | .map entries => by rw [Typing.visit, entries.visitEntries, ok_bind]
  | .get labelled object own field => by
      have form : SpecialForm.ofName? "get" = some .get := rfl
      unfold Expr.apply Typing.visit
      simp only [form, labelled, object.visit, ok_bind, referenceOf_eq_ok_iff.mpr own, field]
      rfl
  | .each collection own item body => by
      have form : SpecialForm.ofName? "each" = some .each := rfl
      unfold Expr.each Expr.apply Typing.visit
      have visitedBody := body.visit
      simp only [References.addUnlabelled, References.push] at visitedBody ⊢
      simp only [form, collection.visit, ok_bind, referenceOf_eq_ok_iff.mpr own, item, visitedBody]
  | .ifElse test yes no => by
      have form : SpecialForm.ofName? "if" = some .ifElse := rfl
      unfold Expr.apply Typing.visit
      simp only [form, test.visit, yes.visit, no.visit, ok_bind]
  | .ifSome bound own presents yes no => by
      have form : SpecialForm.ofName? "if_some" = some .ifSome := rfl
      unfold Expr.ifSome Expr.apply Typing.visit
      simp only [form, bound.visit, ok_bind, referenceOf_eq_ok_iff.mpr own, presents, yes.visit,
        no.visit]
  | .call ordinary known args => by
      unfold Expr.apply Typing.visit
      simp only [ordinary, known, args.length_eq.1, if_true]
      rw [args.visitArgs, ok_bind]

theorem AcceptsList.visitList {scope : Scope} {items : List Expr} {references final : References}
    {typed : List Typed} : typing.AcceptsList scope items references typed final →
      typing.visitList scope items references = .ok (typed, final)
  | .nil => rfl
  | .cons item rest => by
      simp only [Typing.visitList, item.visit, rest.visitList, ok_bind]

theorem AcceptsEntries.visitEntries {scope : Scope} {entries : List (Expr × Expr)}
    {references final : References} {typed : List (String × Typed)} :
    typing.AcceptsEntries scope entries references typed final →
      typing.visitEntries scope entries references = .ok (typed, final)
  | .nil => rfl
  | .cons value rest => by
      unfold Typing.visitEntries
      simp only [Expr.keyword, value.visit, rest.visitEntries, ok_bind]

theorem AcceptsArgs.visitArgs {scope : Scope} {args : List Expr} {params : List Ty}
    {references final : References} {typed : List Typed} {function : String} {index : Nat} :
    typing.AcceptsArgs scope args params references typed final →
      typing.visitArgs scope function index args params references = .ok (typed, final)
  | .nil => rfl
  | .cons arg fits rest => by
      simp only [Typing.visitArgs, arg.visit, fits.passes, rest.visitArgs, ok_bind]

end

theorem visit_eq_ok_iff {scope : Scope} {expr : Expr} {references final : References}
    {typed : Typed} : typing.visit scope expr references = .ok (typed, final) ↔
      typing.Accepts scope expr references typed final :=
  ⟨(accepts_of_visit_all typing).1 _ _ _ _ _, Accepts.visit⟩

/-- An expression is accepted by the rules where its roots are bound. -/
theorem check_eq_ok_iff {roots : List (String × Ty)} {expr : Expr} {checked : Checked} :
    typing.check roots expr = .ok checked ↔
      typing.Accepts (bindRoots roots).1 expr (bindRoots roots).2 checked.root
        checked.references := by
  rw [← visit_eq_ok_iff]
  constructor
  · intro accepted
    obtain ⟨⟨root, final⟩, visited, made⟩ := bind_eq_ok_iff.mp accepted
    obtain rfl := Except.ok.inj made
    exact visited
  · exact fun visited => bind_eq_ok_iff.mpr ⟨_, visited, rfl⟩

end Typing

end GraphQuery
