import GraphQuery.Proofs.Typed.Accepts
import Mathlib.Data.List.Induction

/-!
What the checker promises of a checked expression, as rules about one finished table of references.
-/

namespace GraphQuery

namespace Typing

variable (typing : Typing) (references : References)

def Presents (bound reference : Nat) : Prop :=
  (∃ item, typing.typeOf references bound = .optional item ∧
    references.get? reference = some ⟨some bound, none, item⟩) ∨
  ((∀ item, typing.typeOf references bound ≠ .optional item) ∧ reference = bound)

inductive WellTyped : Scope → Typed → Prop
  | symbol {scope reference name} : scope.lookup name = some reference →
      WellTyped scope (.symbol reference name)
  | constant {scope atom} : WellTyped scope (.constant atom)
  | get {scope reference object name back fields ty} : object.reference? = some back →
      typing.typeOf references back = .record fields → Entries.find? fields name = some ty →
      references.get? reference = some ⟨some back, some name, ty⟩ →
      WellTyped scope object → WellTyped scope (.get reference object name)
  | each {scope binder collection body back ty} : collection.reference? = some back →
      typing.typeOf references back = .sequence ty →
      references.get? binder.reference = some ⟨some back, none, ty⟩ →
      WellTyped scope collection → WellTyped ((binder.name, binder.reference) :: scope) body →
      WellTyped scope (.each binder collection body)
  | ifElse {scope test yes no} : WellTyped scope test → WellTyped scope yes →
      WellTyped scope no → WellTyped scope (.ifElse test yes no)
  | ifSome {scope binder bound yes no back} : bound.reference? = some back →
      Presents typing references back binder.reference →
      WellTyped scope bound → WellTyped ((binder.name, binder.reference) :: scope) yes →
      WellTyped scope no → WellTyped scope (.ifSome binder bound yes no)
  | call {scope function found args} : SpecialForm.ofName? function = none →
      typing.functions.find? function = some found → found.params.length = args.length →
      (∀ pair ∈ args.zip found.params, Fits typing references pair.1 pair.2) →
      (∀ arg ∈ args, WellTyped scope arg) → WellTyped scope (.call function found.params args)
  | list {scope items} : (∀ item ∈ items, WellTyped scope item) → WellTyped scope (.list items)
  | map {scope entries} : (∀ entry ∈ entries, WellTyped scope entry.2) →
      WellTyped scope (.map entries)

end Typing

def Scope.Bound (scope : Scope) (references : References) : Prop :=
  ∀ entry ∈ scope, entry.2 < references.size

namespace Scope.Bound

variable {scope : Scope} {references final : References}

theorem mono (bound : Bound scope references) (grown : references.Extends final) :
    Bound scope final :=
  fun entry member => grown.lt_size (bound entry member)

theorem lookup (bound : Bound scope references) {name : String} {reference : Nat}
    (found : scope.lookup name = some reference) : reference < references.size := by
  obtain ⟨before, after, rfl, _⟩ := List.lookup_eq_some_iff.mp found
  exact bound (name, reference) (by simp)

theorem cons (bound : Bound scope references) (name : String) {reference : Nat}
    (inside : reference < references.size) : Bound ((name, reference) :: scope) references := by
  intro entry member
  rcases List.mem_cons.mp member with rfl | member
  · exact inside
  · exact bound entry member

theorem push (bound : Bound scope references) (name : String) (reference : Reference) :
    Bound ((name, references.size) :: scope) (references.push reference).1 :=
  (bound.mono (References.extends_push references reference)).cons name
    (References.lt_size_of_get? (References.get?_push_self references reference))

end Scope.Bound

namespace Typing

variable {typing : Typing} {references final : References} {scope : Scope} {typed : Typed}

theorem WellTyped.reference_lt (wellTyped : WellTyped typing references scope typed)
    (bound : scope.Bound references) {reference : Nat}
    (own : typed.reference? = some reference) : reference < references.size := by
  cases wellTyped with
  | symbol found =>
      simp only [Typed.reference?, Option.some.injEq] at own
      exact own ▸ bound.lookup found
  | get _ _ _ entry _ =>
      simp only [Typed.reference?, Option.some.injEq] at own
      exact own ▸ References.lt_size_of_get? entry
  | constant | each | ifElse | ifSome | call | list | map => simp [Typed.reference?] at own

theorem typeOf_mono (grown : references.Extends final) {index : Nat}
    (inside : index < references.size) :
    typing.typeOf final index = typing.typeOf references index := by
  simp only [typeOf, grown.ty_eq inside]

theorem Presents.mono {back reference : Nat}
    (presents : Presents typing references back reference) (grown : references.Extends final)
    (inside : back < references.size) : Presents typing final back reference := by
  simp only [Presents, typeOf_mono grown inside]
  rcases presents with ⟨item, optional, entry⟩ | same
  · exact Or.inl ⟨item, optional, grown _ _ entry⟩
  · exact Or.inr same

theorem Presents.reference_lt {back reference : Nat}
    (presents : Presents typing references back reference) (inside : back < references.size) :
    reference < references.size := by
  rcases presents with ⟨_, _, entry⟩ | ⟨_, same⟩
  · exact References.lt_size_of_get? entry
  · exact same ▸ inside

theorem Fits.mono {param : Ty} (fits : Fits typing references typed param)
    (grown : references.Extends final)
    (inside : ∀ reference, typed.reference? = some reference → reference < references.size) :
    Fits typing final typed param := by
  obtain ⟨arg, mismatch, accepted⟩ := fits
  refine ⟨arg, mismatch, ?_⟩
  simp only [Typing.fits] at accepted ⊢
  split at accepted
  · rename_i reference own
    rw [typeOf_mono grown (inside reference own)]
    exact accepted
  · exact accepted

/-- What is well-typed stays so while the table grows. -/
theorem WellTyped.mono (wellTyped : WellTyped typing references scope typed)
    (bound : scope.Bound references) (grown : references.Extends final) :
    WellTyped typing final scope typed := by
  induction wellTyped with
  | symbol found => exact .symbol found
  | constant => exact .constant
  | get own record field entry object ih =>
      have inside := object.reference_lt bound own
      exact .get own (typeOf_mono grown inside ▸ record) field (grown _ _ entry) (ih bound)
  | each own sequence entry collection _ ihCollection ihBody =>
      have inside := collection.reference_lt bound own
      exact .each own (typeOf_mono grown inside ▸ sequence) (grown _ _ entry)
        (ihCollection bound) (ihBody (bound.cons _ (References.lt_size_of_get? entry)))
  | ifElse _ _ _ ihTest ihYes ihNo => exact .ifElse (ihTest bound) (ihYes bound) (ihNo bound)
  | ifSome own presents value _ _ ihValue ihYes ihNo =>
      have inside := value.reference_lt bound own
      exact .ifSome own (presents.mono grown inside) (ihValue bound)
        (ihYes (bound.cons _ (presents.reference_lt inside))) (ihNo bound)
  | call ordinary found arity fits args ih =>
      refine .call ordinary found arity ?_ fun arg member => ih arg member bound
      intro pair member
      have argMember := (List.of_mem_zip member).1
      exact (fits pair member).mono grown fun reference own =>
        (args pair.1 argMember).reference_lt bound own
  | list _ ih => exact .list fun item member => ih item member bound
  | map _ ih => exact .map fun entry member => ih entry member bound

/-! What is accepted is well-typed -/

theorem fieldType_eq_ok_iff {back : Nat} {name : String} {ty : Ty} :
    typing.fieldType references back name = .ok ty ↔
      ∃ fields, typing.typeOf references back = .record fields ∧
        Entries.find? fields name = some ty := by
  simp only [fieldType]
  cases typing.typeOf references back with
  | record fields => cases found : Entries.find? fields name <;> simp [found]
  | _ => simp

theorem itemType_eq_ok_iff {back : Nat} {ty : Ty} :
    typing.itemType references back = .ok ty ↔ typing.typeOf references back = .sequence ty := by
  simp only [itemType]
  cases typing.typeOf references back <;> simp

theorem ordered_push_back (ordered : references.Ordered) {back : Nat}
    (inside : back < references.size) (label? : Option String) (ty : Ty) :
    (references.push ⟨some back, label?, ty⟩).1.Ordered :=
  ordered.push fun _ same => Option.some.inj same ▸ inside

section Present

variable {third : References} {back reference : Nat}
  (present : typing.presentReference references back = (third, reference))

include present

theorem grows_of_presentReference : references.Grows third := by
  rw [presentReference] at present
  split at present
  · obtain ⟨rfl, _⟩ := Prod.mk.inj present
    exact .push .refl
  · obtain ⟨rfl, _⟩ := Prod.mk.inj present
    exact .refl

variable (inside : back < references.size)

include inside

theorem ordered_of_presentReference (ordered : references.Ordered) : third.Ordered := by
  rw [presentReference] at present
  split at present
  · obtain ⟨rfl, _⟩ := Prod.mk.inj present
    exact ordered_push_back ordered inside none _
  · obtain ⟨rfl, _⟩ := Prod.mk.inj present
    exact ordered

theorem presents_of_presentReference : Presents typing third back reference := by
  have grown := (grows_of_presentReference present).keeps
  rw [Presents, typeOf_mono grown inside]
  rw [presentReference] at present
  split at present
  · next item optional =>
      obtain ⟨rfl, rfl⟩ := Prod.mk.inj present
      exact .inl ⟨item, optional, References.get?_push_self references _⟩
  · next other =>
      obtain ⟨rfl, rfl⟩ := Prod.mk.inj present
      exact .inr ⟨other, rfl⟩

theorem bound_of_presentReference (bound : scope.Bound references) (name : String) :
    Scope.Bound ((name, reference) :: scope) third := by
  have grown := (grows_of_presentReference present).keeps
  have presents := presents_of_presentReference present inside
  exact (bound.mono grown).cons name (presents.reference_lt (grown.lt_size inside))

end Present

namespace WellTyped

variable {name : String} {back : Nat}

theorem get_of_field {object : Typed} {ty : Ty}
    (wellTyped : WellTyped typing references scope object) (bound : scope.Bound references)
    (own : object.reference? = some back) (field : typing.fieldType references back name = .ok ty) :
    WellTyped typing (references.addLabelled back name ty).1 scope
      (.get references.size object name) := by
  obtain ⟨fields, record, found⟩ := fieldType_eq_ok_iff.mp field
  have grown := References.extends_push references ⟨some back, some name, ty⟩
  have known : typing.typeOf _ back = _ := typeOf_mono grown (wellTyped.reference_lt bound own)
  exact .get own (known.trans record) found (References.get?_push_self references _)
    (wellTyped.mono bound grown)

theorem each_of_item {collection body : Typed} {ty : Ty}
    (wellTyped : WellTyped typing references scope collection) (bound : scope.Bound references)
    (own : collection.reference? = some back) (item : typing.itemType references back = .ok ty)
    (grown : (references.addUnlabelled back ty).1.Extends final)
    (inner : WellTyped typing final ((name, references.size) :: scope) body) :
    WellTyped typing final scope (.each ⟨name, references.size⟩ collection body) := by
  have entry := References.get?_push_self references ⟨some back, none, ty⟩
  have grownBoth := (References.extends_push references ⟨some back, none, ty⟩).trans grown
  have known : typing.typeOf final back = _ :=
    typeOf_mono grownBoth (wellTyped.reference_lt bound own)
  exact .each own (known.trans (itemType_eq_ok_iff.mp item)) (grown _ _ entry)
    (wellTyped.mono bound grownBoth) inner

theorem ifSome_of_present {value yes no : Typed} {third : References} {reference : Nat}
    (wellTyped : WellTyped typing references scope value) (bound : scope.Bound references)
    (own : value.reference? = some back)
    (present : typing.presentReference references back = (third, reference))
    (grown : third.Extends final)
    (wellTypedYes : WellTyped typing final ((name, reference) :: scope) yes)
    (wellTypedNo : WellTyped typing final scope no) :
    WellTyped typing final scope (.ifSome ⟨name, reference⟩ value yes no) := by
  have inside := wellTyped.reference_lt bound own
  have grownThird := (grows_of_presentReference present).keeps
  have presents := presents_of_presentReference present inside
  exact .ifSome own (presents.mono grown (grownThird.lt_size inside))
    (wellTyped.mono bound (grownThird.trans grown)) wellTypedYes wellTypedNo

end WellTyped

section Accepted

variable {typing : Typing}

mutual

theorem Accepts.grows {scope : Scope} {expr : Expr} {references final : References}
    {typed : Typed} :
    typing.Accepts scope expr references typed final → references.Grows final
  | .symbol _ => .refl
  | .constant => .refl
  | .list items => items.grows
  | .map entries => entries.grows
  | .get _ object _ _ => .push object.grows
  | .each collection _ _ body => .trans (.push collection.grows) body.grows
  | .ifElse test yes no => (test.grows.trans yes.grows).trans no.grows
  | .ifSome bound _ present yes no =>
      ((bound.grows.trans (grows_of_presentReference present)).trans yes.grows).trans no.grows
  | .call _ _ args => args.grows

theorem AcceptsList.grows {scope : Scope} {items : List Expr} {references final : References}
    {typed : List Typed} :
    typing.AcceptsList scope items references typed final → references.Grows final
  | .nil => .refl
  | .cons item rest => item.grows.trans rest.grows

theorem AcceptsEntries.grows {scope : Scope} {entries : List (Expr × Expr)}
    {references final : References} {typed : List (String × Typed)} :
    typing.AcceptsEntries scope entries references typed final → references.Grows final
  | .nil => .refl
  | .cons value rest => value.grows.trans rest.grows

theorem AcceptsArgs.grows {scope : Scope} {args : List Expr} {params : List Ty}
    {references final : References} {typed : List Typed} :
    typing.AcceptsArgs scope args params references typed final → references.Grows final
  | .nil => .refl
  | .cons arg _ rest => arg.grows.trans rest.grows

end

theorem Accepts.reference_lt {scope : Scope} {expr : Expr} {references final : References}
    {typed : Typed} (accepts : typing.Accepts scope expr references typed final)
    (bound : scope.Bound references) {reference : Nat}
    (own : typed.reference? = some reference) : reference < final.size := by
  cases accepts with
  | symbol found =>
      obtain rfl := Option.some.inj own
      exact bound.lookup found
  | get =>
      obtain rfl := Option.some.inj own
      exact References.lt_size_of_get? (References.get?_push_self _ _)
  | constant | each | ifElse | ifSome | call | list | map => cases own

theorem AcceptsArgs.fits {scope : Scope} {args : List Expr} {params : List Ty}
    {references final : References} {typed : List Typed} (bound : scope.Bound references) :
    typing.AcceptsArgs scope args params references typed final →
      ∀ pair ∈ typed.zip params, Fits typing final pair.1 pair.2
  | .nil => by simp
  | .cons arg fits rest => by
      rw [List.zip_cons_cons, List.forall_mem_cons]
      exact ⟨fits.mono rest.grows.keeps fun _ own => arg.reference_lt bound own,
        rest.fits (bound.mono arg.grows.keeps)⟩

mutual

/-- What comes of an expression is well-typed in the table that it leaves. -/
theorem Accepts.wellTyped {scope : Scope} {expr : Expr} {references final : References}
    {typed : Typed} (bound : scope.Bound references) :
    typing.Accepts scope expr references typed final → WellTyped typing final scope typed
  | .symbol found => .symbol found
  | .constant => .constant
  | .list items => .list (items.wellTyped bound)
  | .map entries => .map (entries.wellTyped bound)
  | .get _ object own field =>
      (object.wellTyped bound).get_of_field (bound.mono object.grows.keeps) own field
  | .each collection own item body => by
      have boundMiddle := bound.mono collection.grows.keeps
      exact (collection.wellTyped bound).each_of_item boundMiddle own item body.grows.keeps
        (body.wellTyped (boundMiddle.push _ _))
  | .ifElse test yes no => by
      have boundSecond := bound.mono test.grows.keeps
      have boundThird := boundSecond.mono yes.grows.keeps
      exact .ifElse
        ((test.wellTyped bound).mono boundSecond (yes.grows.keeps.trans no.grows.keeps))
        ((yes.wellTyped boundSecond).mono boundThird no.grows.keeps) (no.wellTyped boundThird)
  | .ifSome value own present yes no => by
      have boundSecond := bound.mono value.grows.keeps
      have boundThird := boundSecond.mono (grows_of_presentReference present).keeps
      have inside := value.reference_lt bound own
      have boundYes := bound_of_presentReference present inside boundSecond
      -- the other branch is checked in the outer scope again
      exact (value.wellTyped bound).ifSome_of_present boundSecond own present
        (yes.grows.keeps.trans no.grows.keeps)
        ((yes.wellTyped (boundYes _)).mono ((boundYes _).mono yes.grows.keeps) no.grows.keeps)
        (no.wellTyped (boundThird.mono yes.grows.keeps))
  | .call ordinary known args =>
      .call ordinary known args.length_eq.2 (args.fits bound) (args.wellTyped bound)

theorem AcceptsList.wellTyped {scope : Scope} {items : List Expr} {references final : References}
    {typed : List Typed} (bound : scope.Bound references) :
    typing.AcceptsList scope items references typed final →
      ∀ item ∈ typed, WellTyped typing final scope item
  | .nil => by simp
  | .cons item rest => by
      have boundMiddle := bound.mono item.grows.keeps
      exact List.forall_mem_cons.mpr ⟨(item.wellTyped bound).mono boundMiddle rest.grows.keeps,
        rest.wellTyped boundMiddle⟩

theorem AcceptsEntries.wellTyped {scope : Scope} {entries : List (Expr × Expr)}
    {references final : References} {typed : List (String × Typed)}
    (bound : scope.Bound references) :
    typing.AcceptsEntries scope entries references typed final →
      ∀ entry ∈ typed, WellTyped typing final scope entry.2
  | .nil => by simp
  | .cons value rest => by
      have boundMiddle := bound.mono value.grows.keeps
      exact List.forall_mem_cons.mpr ⟨(value.wellTyped bound).mono boundMiddle rest.grows.keeps,
        rest.wellTyped boundMiddle⟩

theorem AcceptsArgs.wellTyped {scope : Scope} {args : List Expr} {params : List Ty}
    {references final : References} {typed : List Typed} (bound : scope.Bound references) :
    typing.AcceptsArgs scope args params references typed final →
      ∀ arg ∈ typed, WellTyped typing final scope arg
  | .nil => by simp
  | .cons arg _ rest => by
      have boundMiddle := bound.mono arg.grows.keeps
      exact List.forall_mem_cons.mpr ⟨(arg.wellTyped bound).mono boundMiddle rest.grows.keeps,
        rest.wellTyped boundMiddle⟩

end

mutual

theorem Accepts.ordered {scope : Scope} {expr : Expr} {references final : References}
    {typed : Typed} (bound : scope.Bound references) (ordered : references.Ordered) :
    typing.Accepts scope expr references typed final → final.Ordered
  | .symbol _ => ordered
  | .constant => ordered
  | .list items => items.ordered bound ordered
  | .map entries => entries.ordered bound ordered
  | .get _ object own _ =>
      ordered_push_back (object.ordered bound ordered) (object.reference_lt bound own) _ _
  | .each collection own _ body => by
      have inside := collection.reference_lt bound own
      exact body.ordered ((bound.mono collection.grows.keeps).push _ _)
        (ordered_push_back (collection.ordered bound ordered) inside _ _)
  | .ifElse test yes no => by
      have boundSecond := bound.mono test.grows.keeps
      exact no.ordered (boundSecond.mono yes.grows.keeps)
        (yes.ordered boundSecond (test.ordered bound ordered))
  | .ifSome value own present yes no => by
      have inside := value.reference_lt bound own
      have boundSecond := bound.mono value.grows.keeps
      have boundThird := boundSecond.mono (grows_of_presentReference present).keeps
      exact no.ordered (boundThird.mono yes.grows.keeps)
        (yes.ordered (bound_of_presentReference present inside boundSecond _)
          (ordered_of_presentReference present inside (value.ordered bound ordered)))
  | .call _ _ args => args.ordered bound ordered

theorem AcceptsList.ordered {scope : Scope} {items : List Expr} {references final : References}
    {typed : List Typed} (bound : scope.Bound references) (ordered : references.Ordered) :
    typing.AcceptsList scope items references typed final → final.Ordered
  | .nil => ordered
  | .cons item rest =>
      rest.ordered (bound.mono item.grows.keeps) (item.ordered bound ordered)

theorem AcceptsEntries.ordered {scope : Scope} {entries : List (Expr × Expr)}
    {references final : References} {typed : List (String × Typed)}
    (bound : scope.Bound references) (ordered : references.Ordered) :
    typing.AcceptsEntries scope entries references typed final → final.Ordered
  | .nil => ordered
  | .cons value rest =>
      rest.ordered (bound.mono value.grows.keeps) (value.ordered bound ordered)

theorem AcceptsArgs.ordered {scope : Scope} {args : List Expr} {params : List Ty}
    {references final : References} {typed : List Typed} (bound : scope.Bound references)
    (ordered : references.Ordered) :
    typing.AcceptsArgs scope args params references typed final → final.Ordered
  | .nil => ordered
  | .cons arg _ rest => rest.ordered (bound.mono arg.grows.keeps) (arg.ordered bound ordered)

end

end Accepted

/-! Bound roots -/

structure BindsRoots (roots : List (String × Ty)) (scope : Scope) (references : References) :
    Prop where
  ordered : references.Ordered
  bound : scope.Bound references
  root : ∀ name reference, scope.lookup name = some reference → ∃ ty,
    roots.reverse.lookup name = some ty ∧
      references.get? reference = some ⟨none, some name, ty⟩

theorem bindRoots_append (roots : List (String × Ty)) (name : String) (ty : Ty) :
    bindRoots (roots ++ [(name, ty)]) =
      ((name, (bindRoots roots).2.size) :: (bindRoots roots).1,
        ((bindRoots roots).2.push ⟨none, some name, ty⟩).1) := by
  simp [bindRoots, References.addRoot, References.push]

theorem bindRoots_spec_places (roots : List (String × Ty)) :
    (bindRoots roots).2.size = roots.length ∧
    (bindRoots roots).1 = (roots.zipIdx.map fun entry => (entry.1.1, entry.2)).reverse ∧
    ∀ index, (bindRoots roots).2.get? index =
      roots[index]?.map fun root => ⟨none, some root.1, root.2⟩ := by
  induction roots using List.reverseRecOn with
  | nil => exact ⟨rfl, rfl, fun index => by simp [bindRoots, References.empty, References.get?]⟩
  | append_singleton roots last ih =>
      obtain ⟨name, ty⟩ := last
      obtain ⟨size, scope, places⟩ := ih
      rw [bindRoots_append]
      refine ⟨?_, ?_, fun index => ?_⟩
      · simpa [References.push, References.size] using size
      · simp [scope, size, List.zipIdx_append]
      · rw [References.get?_push, places, size]
        split
        · next last => simp [last]
        · next other =>
          by_cases inside : index < roots.length
          · rw [List.getElem?_append_left inside]
          · rw [List.getElem?_eq_none (by omega), List.getElem?_eq_none (by simp; omega)]

theorem bindRoots_spec (roots : List (String × Ty)) :
    BindsRoots roots (bindRoots roots).1 (bindRoots roots).2 := by
  induction roots using List.reverseRecOn with
  | nil =>
      refine ⟨References.ordered_empty, ?_, ?_⟩
      · intro entry member
        simp [bindRoots] at member
      · intro name reference found
        simp [bindRoots] at found
  | append_singleton roots last ih =>
      obtain ⟨name, ty⟩ := last
      have entry := References.get?_push_self (bindRoots roots).2 ⟨none, some name, ty⟩
      have grown := References.extends_push (bindRoots roots).2 ⟨none, some name, ty⟩
      rw [bindRoots_append]
      refine ⟨ih.ordered.push (by simp), ?_, ?_⟩
      · exact (ih.bound.mono grown).cons name (References.lt_size_of_get? entry)
      · intro sought reference found
        simp only [List.reverse_append, List.reverse_cons, List.reverse_nil, List.nil_append,
          List.cons_append, List.lookup_cons] at found ⊢
        by_cases same : sought = name
        · subst same
          simp only [beq_self_eq_true, Option.some.injEq] at found
          exact ⟨ty, by simp, found ▸ entry⟩
        · have different : (sought == name) = false := beq_eq_false_iff_ne.mpr same
          simp only [different] at found ⊢
          obtain ⟨ty, lookup, entry⟩ := ih.root sought reference found
          exact ⟨ty, lookup, grown _ _ entry⟩

/-- An accepted expression is well-typed where its roots are bound, in a table that grew from
theirs. -/
theorem check_grown {roots : List (String × Ty)} {expr : Expr} {checked : Checked}
    (accepted : typing.check roots expr = .ok checked) :
    (bindRoots roots).2.Grows checked.references ∧
      BindsRoots roots (bindRoots roots).1 checked.references ∧
      WellTyped typing checked.references (bindRoots roots).1 checked.root := by
  have binds := bindRoots_spec roots
  have accepts := check_eq_ok_iff.mp accepted
  have kept := accepts.grows.keeps
  refine ⟨accepts.grows, ⟨accepts.ordered binds.bound binds.ordered, binds.bound.mono kept,
    fun name reference found => ?_⟩, accepts.wellTyped binds.bound⟩
  obtain ⟨ty, lookup, entry⟩ := binds.root name reference found
  exact ⟨ty, lookup, kept _ _ entry⟩

theorem check_sound {roots : List (String × Ty)} {expr : Expr} {checked : Checked}
    (accepted : typing.check roots expr = .ok checked) :
    ∃ scope, BindsRoots roots scope checked.references ∧
      WellTyped typing checked.references scope checked.root := by
  obtain ⟨_, binds, wellTyped⟩ := check_grown accepted
  exact ⟨_, binds, wellTyped⟩

end Typing

end GraphQuery
