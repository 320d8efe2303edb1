import GraphQuery.Proofs.Requirement.Projected
import GraphQuery.Proofs.Typed.Interpret

/-!
Evaluating an expression on projected data beside evaluating it on the data. Wherever a value is
used whole the two agree, so in the end they give the same.
-/

namespace GraphQuery.Requirement

variable {typing : Typing} {references : References} {roots : List (String × Ty)}
  {options : List String} {merged : Query} {index back : Nat}

def Agree (typing : Typing) (references : References) (options : List String) (merged : Query)
    (scope : Scope) (seen full : Bindings) : Prop :=
  ∀ name index, scope.lookup name = some index →
    (∃ value whole, seen.lookup name = some value ∧ full.lookup name = some whole ∧
      Sees typing.types references options merged index value whole) ∨
    (seen.lookup name = none ∧ full.lookup name = none ∧ name ≠ thisName ∧ name ∉ options ∧
      ∃ ty, references.get? index = some ⟨none, some name, ty⟩)

structure Offers (options : List String) (merged : Query) (seen full : Value) : Prop where
  link : ∀ name, name ≠ thisName → name ∉ options → merged.Selects true [name] →
    seen.get? name = (full.get? name).map (merged.branch [name]).project
  field : ∀ name, name ≠ thisName → name ∉ options → merged.Selects false [name] →
    seen.get? name = full.get? name

def Matches (typing : Typing) (references : References) (options : List String) (merged : Query)
    (typed : Typed) (seen full : Except EvalError Value) : Prop :=
  (∃ error, seen = .error error ∧ full = .error error) ∨
    ∃ value whole, seen = .ok value ∧ full = .ok whole ∧ (value = whole ∨
      ∃ index, typed.reference? = some index ∧
        Sees typing.types references options merged index value whole)

variable {scope : Scope} {typed : Typed}

theorem Agree.cons {seen full : Bindings} {value whole : Value}
    (agree : Agree typing references options merged scope seen full) (name : String)
    (sees : Sees typing.types references options merged index value whole) :
    Agree typing references options merged ((name, index) :: scope) ((name, value) :: seen)
      ((name, whole) :: full) := by
  intro sought found lookup
  by_cases same : sought = name
  · subst same
    simp only [List.lookup_cons_self, Option.some.injEq] at lookup
    subst lookup
    exact Or.inl ⟨value, whole, by simp, by simp, sees⟩
  · have different : (sought == name) = false := beq_eq_false_iff_ne.mpr same
    simp only [List.lookup_cons, different] at lookup ⊢
    exact agree sought found lookup

namespace Matches

variable {seen full : Except EvalError Value}

theorem ofEq (same : seen = full) : Matches typing references options merged typed seen full := by
  subst same
  cases seen with
  | error error => exact Or.inl ⟨error, rfl, rfl⟩
  | ok value => exact Or.inr ⟨value, value, rfl, rfl, Or.inl rfl⟩

theorem eq (same : Matches typing references options merged typed seen full)
    (data : ¬ typed.Carries typing.types references) : seen = full := by
  rcases same with ⟨error, rfl, rfl⟩ | ⟨value, whole, rfl, rfl, equal | ⟨index, own, sees⟩⟩
  · rfl
  · rw [equal]
  · rw [sees.eq_of_data fun objects => data ⟨index, own, objects⟩]

theorem bind {α : Type} {next other : Value → Except EvalError α}
    (same : Matches typing references options merged typed seen full)
    (own : typed.reference? = some index)
    (onward : ∀ value whole, Sees typing.types references options merged index value whole →
      next value = other whole) : (seen >>= next) = (full >>= other) := by
  rcases same with ⟨error, rfl, rfl⟩ | ⟨value, whole, rfl, rfl, equal | ⟨found, ownFound, sees⟩⟩
  · rfl
  · exact onward value whole (Or.inl equal)
  · obtain rfl := Option.some.inj (own.symm.trans ownFound)
    exact onward value whole sees

end Matches

def Faithful (typing : Typing) (references : References) (options : List String) (merged : Query)
    (contextSeen contextFull : Value) (scope : Scope) (typed : Typed) : Prop :=
  (∀ query ∈ collect typing.types references typed, Supplies merged options query) →
  typed.Discreet typing.types references → typed.Confined typing.functions →
  ∀ seen full, Agree typing references options merged scope seen full →
    Matches typing references options merged typed
      (typed.interpret typing.functions contextSeen seen)
      (typed.interpret typing.functions contextFull full)

variable {contextSeen contextFull : Value}

theorem faithful_symbol {name : String}
    (setting : Setting typing references roots options merged)
    (offers : Offers options merged contextSeen contextFull)
    (tracked : typing.Tracked references roots index) (found : scope.lookup name = some index) :
    Faithful typing references options merged contextSeen contextFull scope
      (.symbol index name) := by
  intro supplied _ _ seen full agree
  simp only [collect, ofTyped, Typed.reference?] at supplied
  simp only [Typed.interpret, Bindings.read]
  rcases agree name index found with
    ⟨value, whole, bound, boundFull, sees⟩ | ⟨free, freeFull, notThis, notOption, ty, entry⟩
  · simp only [bound, boundFull]
    exact Or.inr ⟨value, whole, rfl, rfl, Or.inr ⟨index, rfl, sees⟩⟩
  · have path : references.path index = [name] := References.path_of_root entry rfl
    have visible : Visible options (references.path index) := by
      rw [path]
      intro first same
      simp only [List.head?_cons, Option.some.injEq] at same
      exact same ▸ notOption
    simp only [free, freeFull, Value.readContext]
    by_cases objects : typing.types.HoldsObjects (references.ty index)
    · have selects := selects_objects tracked setting.ordered setting.flat supplied
        visible objects
      rw [path] at selects
      rw [offers.link name notThis notOption selects]
      cases read : contextFull.get? name with
      | none => exact Or.inl ⟨_, rfl, rfl⟩
      | some whole =>
          exact Or.inr ⟨_, whole, rfl, rfl,
            Or.inr ⟨index, rfl, Or.inr ⟨visible, objects, by rw [path]⟩⟩⟩
    · have selects := selects_data tracked setting.ordered setting.flat supplied
        visible objects
      rw [path] at selects
      rw [offers.field name notThis notOption selects]
      exact Matches.ofEq rfl

theorem faithful_get {object : Typed} {name : String} {ty : Ty}
    (setting : Setting typing references roots options merged)
    (tracked : typing.Tracked references roots index)
    (trackedBack : typing.Tracked references roots back) (own : object.reference? = some back)
    (entry : references.get? index = some ⟨some back, some name, ty⟩)
    (ih : Faithful typing references options merged contextSeen contextFull scope object) :
    Faithful typing references options merged contextSeen contextFull scope
      (.get index object name) := by
  intro supplied discreet confined seen full agree
  simp only [collect, ofTyped, Typed.reference?, List.mem_append] at supplied
  have part : object ∈ (Typed.get index object name).parts := by simp [Typed.parts]
  have same := ih (fun query member => supplied query (Or.inr member)) (discreet.part part)
    (confined.part part) seen full agree
  simp only [Typed.interpret]
  rcases same with ⟨error, failed, failedToo⟩ | ⟨value, whole, done, doneToo, related⟩
  · exact Or.inl ⟨error, by rw [failed]; rfl, by rw [failedToo]; rfl⟩
  · rw [done, doneToo, ok_bind, ok_bind]
    have sees : Sees typing.types references options merged back value whole := by
      rcases related with equal | ⟨found, ownFound, sees⟩
      · exact Or.inl equal
      · exact Option.some.inj (own.symm.trans ownFound) ▸ sees
    rcases sees.get? setting tracked trackedBack entry
        (fun query member => supplied query (Or.inl member)) with
      ⟨missing, missingToo⟩ | ⟨inner, innerWhole, found, foundToo, seesInner⟩
    · refine Matches.ofEq ?_
      simp only [Value.readAttribute, missing, missingToo, sees.kind_eq]
    · simp only [Value.readAttribute, found, foundToo]
      exact Or.inr ⟨inner, innerWhole, rfl, rfl, Or.inr ⟨index, rfl, seesInner⟩⟩

theorem faithful_each {binder : Binder} {collection body : Typed} {ty : Ty}
    (setting : Setting typing references roots options merged)
    (own : collection.reference? = some back)
    (sequence : typing.typeOf references back = .sequence ty)
    (entry : references.get? binder.reference = some ⟨some back, none, ty⟩)
    (ihCollection : Faithful typing references options merged contextSeen contextFull scope
      collection)
    (ihBody : Faithful typing references options merged contextSeen contextFull
      ((binder.name, binder.reference) :: scope) body) :
    Faithful typing references options merged contextSeen contextFull scope
      (.each binder collection body) := by
  intro supplied discreet confined seen full agree
  simp only [collect, List.mem_append] at supplied
  have partCollection : collection ∈ (Typed.each binder collection body).parts := by
    simp [Typed.parts]
  have partBody : body ∈ (Typed.each binder collection body).parts := by simp [Typed.parts]
  have data : ¬ body.Carries typing.types references :=
    discreet _ .refl body (by simp [Typed.uses])
  refine Matches.ofEq ?_
  simp only [Typed.interpret]
  refine (ihCollection (fun query member => supplied query (Or.inl (Or.inr member)))
    (discreet.part partCollection) (confined.part partCollection) seen full agree).bind own ?_
  intro value whole sees
  cases whole with
  | list items =>
      obtain ⟨change, rfl, seesItem⟩ := sees.items setting.ordered entry sequence
      have bodies : ∀ item ∈ items,
          body.interpret typing.functions contextSeen ((binder.name, change item) :: seen) =
            body.interpret typing.functions contextFull ((binder.name, item) :: full) := by
        intro item _
        refine (ihBody (fun query member => supplied query (Or.inr member))
          (discreet.part partBody) (confined.part partBody) _ _
          (agree.cons binder.name (seesItem item))).eq data
      have mapped : (items.map change).mapM (fun item =>
            body.interpret typing.functions contextSeen ((binder.name, item) :: seen)) =
          items.mapM fun item =>
            body.interpret typing.functions contextFull ((binder.name, item) :: full) :=
        mapM_map_eq bodies
      simp only [mapped]
  | _ =>
      have kinds := sees.kind_eq
      cases value with
      | list => simp [Value.kind] at kinds
      | _ => simp_all [Value.kind]

theorem faithful_ifElse {test yes no : Typed}
    (ihTest : Faithful typing references options merged contextSeen contextFull scope test)
    (ihYes : Faithful typing references options merged contextSeen contextFull scope yes)
    (ihNo : Faithful typing references options merged contextSeen contextFull scope no) :
    Faithful typing references options merged contextSeen contextFull scope
      (.ifElse test yes no) := by
  intro supplied discreet confined seen full agree
  simp only [collect, List.mem_append] at supplied
  have same : ∀ part ∈ [test, yes, no],
      Faithful typing references options merged contextSeen contextFull scope part →
      (∀ query ∈ collect typing.types references part, Supplies merged options query) →
      part.interpret typing.functions contextSeen seen =
        part.interpret typing.functions contextFull full := by
    intro part member ih suppliedPart
    exact (ih suppliedPart (discreet.part member) (confined.part member) seen full agree).eq
      (discreet _ .refl part member)
  refine Matches.ofEq ?_
  simp only [Typed.interpret]
  rw [same test (by simp) ihTest fun query member => supplied query (Or.inl (Or.inl member)),
    same yes (by simp) ihYes fun query member => supplied query (Or.inl (Or.inr member)),
    same no (by simp) ihNo fun query member => supplied query (Or.inr member)]

theorem faithful_ifSome {binder : Binder} {bound yes no : Typed}
    (setting : Setting typing references roots options merged)
    (own : bound.reference? = some back)
    (presents : typing.Presents references back binder.reference)
    (ihBound : Faithful typing references options merged contextSeen contextFull scope bound)
    (ihYes : Faithful typing references options merged contextSeen contextFull
      ((binder.name, binder.reference) :: scope) yes)
    (ihNo : Faithful typing references options merged contextSeen contextFull scope no) :
    Faithful typing references options merged contextSeen contextFull scope
      (.ifSome binder bound yes no) := by
  intro supplied discreet confined seen full agree
  simp only [collect, List.mem_append] at supplied
  have partBound : bound ∈ (Typed.ifSome binder bound yes no).parts := by simp [Typed.parts]
  have partYes : yes ∈ (Typed.ifSome binder bound yes no).parts := by simp [Typed.parts]
  have partNo : no ∈ (Typed.ifSome binder bound yes no).parts := by simp [Typed.parts]
  refine Matches.ofEq ?_
  simp only [Typed.interpret]
  refine (ihBound (fun query member => supplied query (Or.inl (Or.inl (Or.inr member))))
    (discreet.part partBound) (confined.part partBound) seen full agree).bind own ?_
  intro value whole sees
  have otherwise : no.interpret typing.functions contextSeen seen =
      no.interpret typing.functions contextFull full :=
    (ihNo (fun query member => supplied query (Or.inr member)) (discreet.part partNo)
      (confined.part partNo) seen full agree).eq (discreet _ .refl no (by simp [Typed.uses]))
  have present : yes.interpret typing.functions contextSeen ((binder.name, value) :: seen) =
      yes.interpret typing.functions contextFull ((binder.name, whole) :: full) :=
    (ihYes (fun query member => supplied query (Or.inl (Or.inr member))) (discreet.part partYes)
      (confined.part partYes) _ _
      (agree.cons binder.name (sees.present setting.ordered presents))).eq
      (discreet _ .refl yes (by simp [Typed.uses]))
  by_cases null : whole = .null
  · have nullToo := sees.eq_null_iff.mpr null
    subst null nullToo
    exact otherwise
  · have notNull : value ≠ .null := fun same => null (sees.eq_null_iff.mp same)
    cases value with
    | null => exact (notNull rfl).elim
    | _ =>
        cases whole with
        | null => exact (null rfl).elim
        | _ => exact present

/-! Parts that stand side by side -/

theorem interpretList_eq {functions : Environment} {items : List Typed} {seen full : Bindings}
    (each : ∀ item ∈ items, item.interpret functions contextSeen seen =
      item.interpret functions contextFull full) :
    Typed.interpretList functions contextSeen items seen =
      Typed.interpretList functions contextFull items full := by
  induction items with
  | nil => rfl
  | cons item rest ih =>
      simp only [Typed.interpretList]
      rw [each item List.mem_cons_self,
        ih fun other member => each other (List.mem_cons_of_mem item member)]

theorem interpretEntries_eq {functions : Environment} {entries : List (String × Typed)}
    {seen full : Bindings}
    (each : ∀ item ∈ entries.map Prod.snd, item.interpret functions contextSeen seen =
      item.interpret functions contextFull full) :
    Typed.interpretEntries functions contextSeen entries seen =
      Typed.interpretEntries functions contextFull entries full := by
  induction entries with
  | nil => rfl
  | cons entry rest ih =>
      obtain ⟨key, item⟩ := entry
      simp only [Typed.interpretEntries]
      rw [each item List.mem_cons_self,
        ih fun other member => each other (List.mem_cons_of_mem _ member)]

theorem faithful_list {items : List Typed}
    (ih : ∀ item ∈ items,
      Faithful typing references options merged contextSeen contextFull scope item) :
    Faithful typing references options merged contextSeen contextFull scope (.list items) := by
  intro supplied discreet confined seen full agree
  simp only [collect] at supplied
  have each : ∀ item ∈ items, item.interpret typing.functions contextSeen seen =
      item.interpret typing.functions contextFull full := by
    intro item member
    have suppliedItem : ∀ query ∈ collect typing.types references item,
        Supplies merged options query :=
      fun query inside => supplied query (mem_collectList_iff.mpr ⟨item, member, inside⟩)
    exact (ih item member suppliedItem (discreet.part member) (confined.part member) seen full
      agree).eq (discreet _ .refl item member)
  refine Matches.ofEq ?_
  simp only [Typed.interpret, interpretList_eq each]

theorem faithful_map {entries : List (String × Typed)}
    (ih : ∀ entry ∈ entries,
      Faithful typing references options merged contextSeen contextFull scope entry.2) :
    Faithful typing references options merged contextSeen contextFull scope (.map entries) := by
  intro supplied discreet confined seen full agree
  simp only [collect] at supplied
  have each : ∀ item ∈ entries.map Prod.snd, item.interpret typing.functions contextSeen seen =
      item.interpret typing.functions contextFull full := by
    intro item member
    have suppliedItem : ∀ query ∈ collect typing.types references item,
        Supplies merged options query :=
      fun query inside => supplied query (mem_collectEntries_iff.mpr ⟨item, member, inside⟩)
    obtain ⟨entry, declared, rfl⟩ := List.mem_map.mp member
    exact (ih entry declared suppliedItem (discreet.part member) (confined.part member) seen full
      agree).eq (discreet _ .refl entry.2 member)
  refine Matches.ofEq ?_
  simp only [Typed.interpret, interpretEntries_eq each]

def Alike (params : List Ty) (seen full : Except EvalError (List Value)) : Prop :=
  (∃ error, seen = .error error ∧ full = .error error) ∨
    ∃ values wholes, seen = .ok values ∧ full = .ok wholes ∧ values.length = params.length ∧
      wholes.length = params.length ∧
      List.zipWith Ty.seen params values = List.zipWith Ty.seen params wholes

theorem alike_interpretList {functions : Environment} {args : List Typed} {params : List Ty}
    {seen full : Bindings} (arity : params.length = args.length)
    (each : ∀ pair ∈ args.zip params,
      (∃ error, pair.1.interpret functions contextSeen seen = .error error ∧
        pair.1.interpret functions contextFull full = .error error) ∨
      ∃ value whole, pair.1.interpret functions contextSeen seen = .ok value ∧
        pair.1.interpret functions contextFull full = .ok whole ∧
        pair.2.seen value = pair.2.seen whole) :
    Alike params (Typed.interpretList functions contextSeen args seen)
      (Typed.interpretList functions contextFull args full) := by
  induction args generalizing params with
  | nil =>
      obtain rfl := List.length_eq_zero_iff.mp arity
      exact Or.inr ⟨[], [], rfl, rfl, rfl, rfl, rfl⟩
  | cons arg args ih =>
      obtain ⟨param, rest, rfl⟩ := List.exists_cons_of_length_eq_add_one arity
      simp only [Typed.interpretList]
      rcases each (arg, param) (by simp) with
        ⟨error, failed, failedToo⟩ | ⟨value, whole, done, doneToo, same⟩
      · exact Or.inl ⟨error, by rw [failed]; rfl, by rw [failedToo]; rfl⟩
      · rw [done, doneToo, ok_bind, ok_bind]
        have arityRest : rest.length = args.length := by simpa using arity
        rcases ih arityRest fun pair member => each pair (List.mem_cons_of_mem _ member) with
          ⟨error, failed, failedToo⟩ | ⟨values, wholes, all, allToo, count, countToo, sames⟩
        · exact Or.inl ⟨error, by rw [failed]; rfl, by rw [failedToo]; rfl⟩
        · refine Or.inr ⟨value :: values, whole :: wholes, by rw [all]; rfl, by rw [allToo]; rfl,
            by simp [count], by simp [countToo], ?_⟩
          simp [same, sames]

theorem supplied_collectArg {arg : Typed} {param : Ty}
    (setting : Setting typing references roots options merged)
    (wellTyped : typing.WellTyped references scope arg)
    (tracked : scope.Tracked typing references roots)
    (supplied : ∀ query ∈ collectArg typing.types references arg param,
      Supplies merged options query) :
    (∀ query ∈ collect typing.types references arg, Supplies merged options query) ∧
      ∀ index below, arg.reference? = some index → param.template? = some below →
        ∀ query ∈ ofReference typing.types references index (some below),
          Supplies merged options query := by
  simp only [collectArg] at supplied
  split at supplied
  · rename_i index below own asked
    refine ⟨supplies_collect wellTyped tracked setting.ordered setting.flat own
      supplied, ?_⟩
    intro found query same sameQuery
    obtain rfl := Option.some.inj (own.symm.trans same)
    obtain rfl := Option.some.inj (asked.symm.trans sameQuery)
    exact supplied
  · rename_i untemplated
    refine ⟨supplied, ?_⟩
    intro index below own asked
    exact (untemplated index below own asked).elim

theorem faithful_call {name : String} {function : Function} {args : List Typed}
    (setting : Setting typing references roots options merged)
    (wellTyped : ∀ arg ∈ args, typing.WellTyped references scope arg)
    (tracked : scope.Tracked typing references roots)
    (found : typing.functions.find? name = some function)
    (arity : function.params.length = args.length)
    (ih : ∀ arg ∈ args,
      Faithful typing references options merged contextSeen contextFull scope arg) :
    Faithful typing references options merged contextSeen contextFull scope
      (.call name function.params args) := by
  intro supplied discreet confined seen full agree
  simp only [collect] at supplied
  have each : ∀ pair ∈ args.zip function.params,
      (∃ error, pair.1.interpret typing.functions contextSeen seen = .error error ∧
        pair.1.interpret typing.functions contextFull full = .error error) ∨
      ∃ value whole, pair.1.interpret typing.functions contextSeen seen = .ok value ∧
        pair.1.interpret typing.functions contextFull full = .ok whole ∧
        pair.2.seen value = pair.2.seen whole := by
    rintro ⟨arg, param⟩ inside
    have member := (List.of_mem_zip inside).1
    obtain ⟨suppliedArg, suppliedBelow⟩ :=
      supplied_collectArg setting (wellTyped arg member) tracked fun query required =>
        supplied query (mem_collectArgs_iff.mpr ⟨_, inside, required⟩)
    have same := ih arg member suppliedArg (discreet.part member) (confined.part member) seen full
      agree
    -- without a template the argument is used whole, so it may not carry objects
    cases asked : param.template? with
    | none =>
        have used : arg ∈ (Typed.call name function.params args).uses := by
          simp only [Typed.uses, List.mem_filterMap]
          exact ⟨(arg, param), inside, by simp [asked]⟩
        have equal := same.eq (discreet _ .refl arg used)
        simp only [equal, Ty.seen, asked]
        cases arg.interpret typing.functions contextFull full with
        | error error => exact Or.inl ⟨error, rfl, rfl⟩
        | ok value => exact Or.inr ⟨value, value, rfl, rfl, rfl⟩
    | some below =>
        rcases same with failed | ⟨value, whole, done, doneToo, rfl | ⟨index, own, sees⟩⟩
        · exact Or.inl failed
        · exact Or.inr ⟨value, value, done, doneToo, rfl⟩
        · refine Or.inr ⟨value, whole, done, doneToo, ?_⟩
          simp only [Ty.seen, asked]
          exact sees.template setting ((wellTyped arg member).tracked tracked own)
            (Ty.plain_template param below asked) (suppliedBelow index below own asked)
  refine Matches.ofEq ?_
  simp only [Typed.interpret, found]
  rcases alike_interpretList arity each with
    ⟨error, failed, failedToo⟩ | ⟨values, wholes, done, doneToo, count, countToo, sames⟩
  · rw [failed, failedToo]
  · have called := confined name function.params args .refl function found values wholes count
      countToo sames
    rw [done, doneToo, ok_bind, ok_bind]
    simp only [Function.apply, called]

/-- Evaluating on projected data that supplies what is required is faithful for every part. -/
theorem wellTyped_faithful (wellTyped : typing.WellTyped references scope typed)
    (setting : Setting typing references roots options merged)
    (offers : Offers options merged contextSeen contextFull)
    (tracked : scope.Tracked typing references roots) :
    Faithful typing references options merged contextSeen contextFull scope typed := by
  induction wellTyped with
  | @symbol scope reference name found =>
      exact faithful_symbol setting offers (tracked name reference found) found
  | constant =>
      intro _ _ _ seen full _
      exact Matches.ofEq rfl
  | get own record declared entry object ih =>
      have trackedBack := object.tracked tracked own
      exact faithful_get setting (.field entry record declared trackedBack) trackedBack own entry
        (ih tracked)
  | each own sequence entry collection _ ihCollection ihBody =>
      have trackedItem := Typing.Tracked.item entry sequence (collection.tracked tracked own)
      exact faithful_each setting own sequence entry (ihCollection tracked)
        (ihBody (tracked.cons _ trackedItem))
  | ifElse _ _ _ ihTest ihYes ihNo =>
      exact faithful_ifElse (ihTest tracked) (ihYes tracked) (ihNo tracked)
  | ifSome own presents bound _ _ ihBound ihYes ihNo =>
      have trackedItem := presents.tracked (bound.tracked tracked own)
      exact faithful_ifSome setting own presents (ihBound tracked)
        (ihYes (tracked.cons _ trackedItem)) (ihNo tracked)
  | call _ found arity _ args ih =>
      exact faithful_call setting args tracked found arity fun arg member => ih arg member tracked
  | list _ ih => exact faithful_list fun item member => ih item member tracked
  | map _ ih => exact faithful_map fun entry member => ih entry member tracked

end GraphQuery.Requirement
