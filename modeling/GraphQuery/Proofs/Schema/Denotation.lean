import GraphQuery.Proofs.Op.Denotation
import GraphQuery.Proofs.Typed.Judgement
import GraphQuery.Proofs.Schema.Built

/-!
References of computed fields denote: while a field is computed, whatever is evaluated for a part
with a reference is a value that the reference denotes, from the object, the options and the context
that the field is called with.
-/

namespace GraphQuery

/-- A name that is looked up among numbered names has the number of its last entry. -/
theorem lookup_zipIdx {α : Type} {entries : List (String × α)} {name : String} {index : Nat}
    (found : (entries.map Prod.fst).zipIdx.reverse.lookup name = some index) :
    ∃ value, entries[index]? = some (name, value) ∧ entries.reverse.lookup name = some value := by
  have numbered : entries.map (fun entry => (entry.1, some entry.2)) =
      (entries.map Prod.fst).zipIdx.map fun entry =>
        (entry.1, entries[entry.2]?.map Prod.snd) := by
    apply List.ext_getElem
    · simp
    · intro place inside _
      simp only [List.length_map] at inside
      simp [List.getElem?_eq_getElem inside]
  have last : (entries.reverse.lookup name).map some = some (entries[index]?.map Prod.snd) := by
    rw [← Op.lookup_map_snd some, List.map_reverse, numbered, ← List.map_reverse,
      Op.lookup_map_snd fun place => entries[place]?.map Prod.snd, found, Option.map_some]
  obtain ⟨value, looked, same⟩ := Option.map_eq_some_iff.mp last
  obtain ⟨⟨key, held⟩, placed, rfl⟩ := Option.map_eq_some_iff.mp same.symm
  obtain ⟨before, after, split, _⟩ := List.lookup_eq_some_iff.mp found
  have member : (name, index) ∈ (entries.map Prod.fst).zipIdx := by
    rw [← List.mem_reverse, split]
    simp
  have named := List.mk_mem_zipIdx_iff_getElem?.mp member
  rw [List.getElem?_map, placed, Option.map_some, Option.some.injEq] at named
  exact ⟨held, by rw [placed, ← named], looked⟩

namespace ComputedField

def rootValues (field : ComputedField) (graph : Graph) (this context : Value)
    (options : List Value) : List (String × Option Value) :=
  (graph.root.map fun entry => (entry.1, context.get? entry.1)) ++
    ((field.definition.optionNames.zip options).map fun entry => (entry.1, some entry.2)) ++
      [(thisName, some this)]

variable {field : ComputedField} {graph : Graph} {this context value : Value}
  {options : List Value} {name : String}

theorem names_rootValues (counted : options.length = field.definition.optionNames.length) :
    (field.rootValues graph this context options).map Prod.fst =
      (field.definition.roots graph).map Prod.fst := by
  have names : (field.definition.optionNames.zip options).map Prod.fst =
      field.definition.optionNames := List.map_fst_zip (Nat.le_of_eq counted.symm)
  have mapped : ((field.definition.optionNames.zip options).map
      fun entry => (entry.1, some entry.2)).map Prod.fst = field.definition.optionNames := by
    rw [List.map_map]
    exact names
  simp only [rootValues, ComputedFieldDef.roots, List.map_append, mapped]
  simp [Entries.mapValues, ComputedFieldDef.optionNames, Function.comp_def]

theorem get?_of_lookup_context {entries : Entries FieldDef} {bound? : Option Value}
    (bound : (entries.map fun entry => (entry.1, context.get? entry.1)).reverse.lookup name =
      some bound?) : bound? = context.get? name := by
  obtain ⟨before, after, split, _⟩ := List.lookup_eq_some_iff.mp bound
  have member : (name, bound?) ∈ entries.map fun entry => (entry.1, context.get? entry.1) := by
    rw [← List.mem_reverse, split]
    simp
  obtain ⟨entry, _, same⟩ := List.mem_map.mp member
  obtain ⟨rfl, rfl⟩ := Prod.mk.inj same
  rfl

/-- A name that is read gives the value that its last root is bound to. -/
theorem read_of_lookup_rootValues (free : thisName ∉ field.definition.optionNames)
    {bound? : Option Value}
    (bound : (field.rootValues graph this context options).reverse.lookup name = some bound?)
    (read : Bindings.read (.ofArguments this field.definition.optionNames options) context name =
      .ok value) : bound? = some value := by
  have given : ((field.definition.optionNames.zip options).map
      fun entry => (entry.1, some entry.2)).reverse.lookup name =
        ((field.definition.optionNames.zip options).reverse.lookup name).map some := by
    rw [← List.map_reverse]
    exact Op.lookup_map_snd some _ name
  rw [rootValues, List.reverse_append, List.reverse_singleton, List.singleton_append] at bound
  by_cases own : name = thisName
  · subst own
    rw [List.lookup_cons_self, Option.some.injEq] at bound
    rw [Bindings.read, Bindings.lookup_this free] at read
    exact bound.symm.trans (congrArg some (Except.ok.inj read))
  · have other : (name == thisName) = false := beq_eq_false_iff_ne.mpr own
    rw [List.lookup_cons, other, List.reverse_append, List.lookup_append, given] at bound
    rw [Bindings.read, Bindings.ofArguments, List.reverse_cons, List.lookup_append] at read
    cases option : (field.definition.optionNames.zip options).reverse.lookup name with
    | some found =>
        simp only [option, Option.map_some, Option.some_or, Option.some.injEq] at bound
        simp only [option, Option.some_or, Except.ok.injEq] at read
        exact bound.symm.trans (congrArg some read)
    | none =>
        simp only [option, Option.map_none, Option.none_or] at bound
        simp only [option, Option.none_or, List.lookup_cons, other, List.lookup_nil,
          Value.readContext] at read
        rw [get?_of_lookup_context bound]
        split at read
        · next found => exact found.trans (congrArg some (Except.ok.inj read))
        · cases read

variable {environment : Environment} {checked : Checked} {scope : Scope}

/-- Where a field starts, names read what their roots are bound to. -/
theorem readsDenoted_roots {typing : Typing} {references : References} {rest : List Value}
    (free : thisName ∉ field.definition.optionNames)
    (counted : options.length = field.definition.optionNames.length)
    (binds : Typing.BindsRoots (field.definition.roots graph)
      (Typing.bindRoots (field.definition.roots graph)).1 references) :
    Op.ReadsDenoted typing references (field.rootValues graph this context options) context
      (Typing.bindRoots (field.definition.roots graph)).1
      (Op.argumentSlots field.definition.optionNames) (this :: options ++ rest) := by
  intro name reference value found read
  obtain ⟨ty, _, entry⟩ := binds.root name reference found
  rw [Op.Slots.read_of_holds (Op.holds_arguments counted this rest)] at read
  obtain ⟨_, scope, _⟩ := Typing.bindRoots_spec_places (field.definition.roots graph)
  have numbered : ((field.rootValues graph this context options).map Prod.fst).zipIdx.reverse.lookup
      name = some reference := by
    rw [names_rootValues counted, List.zipIdx_map, ← found, scope]
    rfl
  obtain ⟨bound?, placed, last⟩ := lookup_zipIdx numbered
  obtain rfl := read_of_lookup_rootValues free last read
  exact .root entry placed

/-- A defined field starts where its program stands for its expression. -/
theorem Defined.standsFor (defined : field.Defined graph environment checked)
    (counted : options.length = field.program.options) :
    Op.StandsFor ⟨graph.types, environment⟩ checked.references
      (field.rootValues graph this context options) context checked.root field.program.op
      (field.program.frame this options) := by
  obtain ⟨_, binds, wellTyped⟩ := Typing.check_grown defined.accepted
  obtain ⟨program, compiled, runs⟩ :=
    Checked.compile_runs defined.accepted field.definition.optionNames
  obtain rfl := Except.ok.inj (defined.compiled.symm.trans compiled)
  have counted := counted.trans runs.arity
  have length := runs.frame this options counted
  obtain ⟨⟨op, slots⟩, compiledRoot, made⟩ := bind_eq_ok_iff.mp compiled
  rw [← Except.ok.inj made] at length ⊢
  exact ⟨_, _, _, slots, wellTyped, compiledRoot, Op.covers_roots binds _,
    Op.below_arguments _, Nat.le_of_eq length.symm,
    readsDenoted_roots (thisName_notMem defined.options) counted binds⟩

end ComputedField

/--
References denote: whatever is evaluated while a computed field is called stands for the part of the
field's expression at the same path, and if that part has a reference, its value is one that the
reference denotes.
-/
theorem Schema.call_denotes {graph : Graph} {environment : Environment}
    {definitions : List ComputedFieldDef} {schema : Schema}
    (built : Schema.build graph environment definitions = .ok schema) {field : ComputedField}
    (member : field ∈ schema.fields) :
    ∃ checked, Typing.check ⟨schema.graph.types, schema.environment⟩
        (field.definition.roots schema.graph) field.expr = .ok checked ∧
      checked.compile field.definition.optionNames = .ok field.program ∧
      ∀ environment this context options, options.length = field.program.options →
        ∀ path op frame, Op.Reaches environment context field.program.op
            (field.program.frame this options) path op frame →
          ∃ part, checked.root.at? path = some part ∧
            ∀ reference value after, part.reference? = some reference →
              op.eval environment context frame = .ok (value, after) →
              Typing.DenotedBy ⟨schema.graph.types, schema.environment⟩ checked.references
                (field.rootValues schema.graph this context options) reference value := by
  obtain ⟨rfl, rfl, fields⟩ := Schema.build_ok built
  obtain ⟨checked, defined⟩ := fields field member
  refine ⟨checked, defined.accepted, defined.compiled, ?_⟩
  intro environment this context options counted path op frame reaches
  obtain ⟨part, found, standsPart⟩ := (defined.standsFor counted).reaches reaches
  exact ⟨part, found, fun reference value after own done => standsPart.denoted done own⟩

def Graph.baskets : Graph where
  root := []
  nodes := [("Basket", ⟨[("items", ⟨.sequence (.named .type "Item"), []⟩)], []⟩),
    ("Item", ⟨[("price", ⟨.integer, []⟩),
      ("coupon", ⟨.optional (.named .type "Coupon"), []⟩)], []⟩),
    ("Coupon", ⟨[("discount", ⟨.integer, []⟩)], []⟩)]
  interfaces := []
  unions := []

def Expr.discounts : Expr :=
  .each "x" (.get (.symbol "this") "items")
    (.ifSome "x" (.get (.symbol "x") "coupon") (.get (.symbol "x") "discount")
      (.get (.symbol "x") "price"))

def Checked.discounts : Checked :=
  ⟨.each ⟨"x", 2⟩ (.get 1 (.symbol 0 "this") "items")
      (.ifSome ⟨"x", 4⟩ (.get 3 (.symbol 2 "x") "coupon") (.get 5 (.symbol 4 "x") "discount")
        (.get 6 (.symbol 2 "x") "price")),
    ⟨#[⟨none, some "this", .named .type "Basket"⟩,
      ⟨some 0, some "items", .sequence (.named .type "Item")⟩,
      ⟨some 1, none, .named .type "Item"⟩,
      ⟨some 2, some "coupon", .optional (.named .type "Coupon")⟩,
      ⟨some 3, none, .named .type "Coupon"⟩,
      ⟨some 4, some "discount", .integer⟩,
      ⟨some 2, some "price", .integer⟩]⟩⟩

def ComputedField.discounts : ComputedField where
  node := "Basket"
  name := "discounts"
  options := []
  expr := .discounts
  requirements := (Checked.discounts.requirements Graph.baskets.types).withoutOptions []
  program := ⟨.each 1 (.get (.slot 0) "items")
    (.ifSome 2 (.get (.slot 1) "coupon") (.get (.slot 2) "discount") (.get (.slot 1) "price")),
    3, 0⟩

def Value.plainItem : Value := .object [("price", .integer 3), ("coupon", .null)]

def Value.coupon : Value := .object [("discount", .integer 2)]

def Value.reducedItem : Value := .object [("price", .integer 5), ("coupon", .coupon)]

def Value.basket : Value := .object [("items", .list ([.plainItem] ++ .reducedItem :: []))]

theorem Schema.call_denotes_discounts :
    Schema.build .baskets [] [ComputedField.discounts.definition] =
      .ok ⟨.baskets, [], [.discounts]⟩ ∧
    Checked.discounts.root.at? [1, 1] = some (.get 5 (.symbol 4 "x") "discount") ∧
    Op.Reaches [] .null ComputedField.discounts.program.op
      (ComputedField.discounts.program.frame .basket []) [1, 1] (.get (.slot 2) "discount")
      [.basket, .reducedItem, .coupon] ∧
    Typing.DenotedBy ⟨Graph.baskets.types, []⟩ Checked.discounts.references
      (ComputedField.discounts.rootValues .baskets .basket .null []) 5 (.integer 2) := by
  have built : Schema.build .baskets [] [ComputedField.discounts.definition] =
    .ok ⟨.baskets, [], [.discounts]⟩ := rfl
  have items : (Op.get (.slot 0) "items").eval [] .null [.basket, .null, .null] =
    .ok (.list ([.plainItem] ++ .reducedItem :: []), [.basket, .null, .null]) := rfl
  have plain : Op.forEach ((Op.ifSome 2 (.get (.slot 1) "coupon") (.get (.slot 2) "discount")
      (.get (.slot 1) "price")).eval [] .null) 1 [.plainItem] [.basket, .null, .null] =
    .ok ([.integer 3], [.basket, .plainItem, .null]) := rfl
  have coupon : (Op.get (.slot 1) "coupon").eval [] .null [.basket, .reducedItem, .null] =
    .ok (.coupon, [.basket, .reducedItem, .null]) := rfl
  have reaches : Op.Reaches [] .null ComputedField.discounts.program.op
      (ComputedField.discounts.program.frame .basket []) [1, 1] (.get (.slot 2) "discount")
      [.basket, .reducedItem, .coupon] :=
    .step (.body items plain) (.step (.present coupon nofun) .refl)
  have discount : (Op.get (.slot 2) "discount").eval [] .null [.basket, .reducedItem, .coupon] =
    .ok (.integer 2, [.basket, .reducedItem, .coupon]) := rfl
  obtain ⟨checked, accepted, _, denotes⟩ := Schema.call_denotes built (List.mem_singleton_self _)
  obtain rfl := Except.ok.inj (show Except.ok Checked.discounts = .ok checked from accepted)
  obtain ⟨part, found, denoted⟩ := denotes [] .basket .null [] rfl _ _ _ reaches
  obtain rfl := Option.some.inj found
  exact ⟨built, found, reaches, denoted 5 _ _ rfl discount⟩

end GraphQuery
