import GraphQuery.Proofs.Op.Entered
import GraphQuery.Proofs.Op.Frames
import GraphQuery.Proofs.Typed.Parts

/-!
References denote values of the data: that of a root, an attribute of a value, an item of a list or
what an optional holds. Whatever is evaluated for a part of an expression is denoted by the part's
reference, because names in scope read values that their references denote.
-/

namespace GraphQuery

def Typed.at? : Typed → List Nat → Option Typed
  | typed, [] => some typed
  | typed, position :: path => typed.parts[position]?.bind fun part => part.at? path

/--
The values that a reference denotes, when roots have the values that they are bound to: a reference
with a label denotes that attribute of a value that the reference behind it denotes; one without
denotes the items of a list, if the type behind it is a sequence, and what is not null, if it is an
optional.
-/
inductive Typing.DenotedBy (typing : Typing) (references : References)
    (roots : List (String × Option Value)) : Nat → Value → Prop
  | root {index name ty value} : references.get? index = some ⟨none, some name, ty⟩ →
      roots[index]? = some (name, some value) → DenotedBy typing references roots index value
  | attribute {index back name ty object value} :
      references.get? index = some ⟨some back, some name, ty⟩ →
      DenotedBy typing references roots back object → object.get? name = some value →
      DenotedBy typing references roots index value
  | item {index back ty item items value} : references.get? index = some ⟨some back, none, ty⟩ →
      typing.typeOf references back = .sequence item →
      DenotedBy typing references roots back (.list items) → value ∈ items →
      DenotedBy typing references roots index value
  | present {index back ty item value} : references.get? index = some ⟨some back, none, ty⟩ →
      typing.typeOf references back = .optional item →
      DenotedBy typing references roots back value → value ≠ .null →
      DenotedBy typing references roots index value

theorem Typing.Presents.denoted {typing : Typing} {references : References}
    {roots : List (String × Option Value)} {back reference : Nat} {value : Value}
    (presents : typing.Presents references back reference)
    (denoted : typing.DenotedBy references roots back value) (notNull : value ≠ .null) :
    typing.DenotedBy references roots reference value := by
  rcases presents with ⟨item, optional, entry⟩ | ⟨_, rfl⟩
  · exact .present entry optional denoted notNull
  · exact denoted

namespace Op

def Slots.read (bound : Slots) (context : Value) (frame : Frame) (name : String) :
    Except EvalError Value :=
  match bound.lookup name with
  | some index => .ok (frame.read index)
  | none => context.readContext name

def ReadsDenoted (typing : Typing) (references : References)
    (roots : List (String × Option Value)) (context : Value) (scope : Scope) (bound : Slots)
    (frame : Frame) : Prop :=
  ∀ name reference value, scope.lookup name = some reference →
    bound.read context frame name = .ok value → typing.DenotedBy references roots reference value

variable {typing : Typing} {references : References} {roots : List (String × Option Value)}
  {environment : Environment} {context value : Value} {scope : Scope} {bound : Slots}
  {typed : Typed} {op part : Op} {used free next position reference : Nat}
  {frame middle after final : Frame} {path : List Nat}

theorem Slots.read_of_holds {bindings : Bindings} (holds : Holds bound frame bindings)
    (context : Value) (name : String) :
    bound.read context frame name = bindings.read context name := by
  rw [read, Bindings.read, holds name]
  cases bound.lookup name <;> rfl

theorem Slots.read_keeps (below : bound.Below used) (keeps : frame.Keeps used after)
    (name : String) : bound.read context after name = bound.read context frame name := by
  rw [read, read]
  cases slot : bound.lookup name with
  | none => rfl
  | some index => simp [keeps.read index (below name index slot)]

namespace ReadsDenoted

theorem keeps (reads : ReadsDenoted typing references roots context scope bound frame)
    (below : bound.Below used) (keeps : frame.Keeps used after) :
    ReadsDenoted typing references roots context scope bound after := by
  intro name reference value found read
  rw [Slots.read_keeps below keeps] at read
  exact reads name reference value found read

theorem cons (reads : ReadsDenoted typing references roots context scope bound frame)
    (below : bound.Below free) (inside : free < frame.length) (name : String)
    (denoted : typing.DenotedBy references roots reference value) :
    ReadsDenoted typing references roots context ((name, reference) :: scope)
      ((name, free) :: bound) (frame.set free value) := by
  intro sought other found lookup read
  by_cases same : sought = name
  · subst same
    simp only [List.lookup_cons_self, Option.some.injEq] at lookup
    simp only [Slots.read, List.lookup_cons_self, Frame.read_set_self inside,
      Except.ok.injEq] at read
    exact lookup ▸ read ▸ denoted
  · have different : (sought == name) = false := beq_eq_false_iff_ne.mpr same
    simp only [List.lookup_cons, different] at lookup
    have readToo : bound.read context (frame.set free value) sought = .ok found := by
      simpa only [Slots.read, List.lookup_cons, different] using read
    exact reads.keeps below (.set (Nat.le_refl free) value) sought other found lookup readToo

end ReadsDenoted

theorem compile_symbol_cases {name : String}
    (compiled : compile references bound (.symbol reference name) used = .ok (op, next)) :
    (∃ index, bound.lookup name = some index ∧ op = .slot index) ∨
      (bound.lookup name = none ∧ op = .context name) := by
  simp only [compile] at compiled
  cases slot : bound.lookup name with
  | some index =>
      simp only [slot] at compiled
      cases compiled
      exact .inl ⟨index, rfl, rfl⟩
  | none =>
      simp only [slot, ofRoot] at compiled
      split at compiled
      · split at compiled
        · cases compiled
          exact .inr ⟨rfl, rfl⟩
        · cases compiled
      · cases compiled

theorem eval_compiled_symbol {name : String}
    (compiled : compile references bound (.symbol reference name) used = .ok (op, next))
    (done : op.eval environment context frame = .ok (value, after)) :
    bound.read context frame name = .ok value := by
  rw [Slots.read]
  rcases compile_symbol_cases compiled with ⟨index, slot, rfl⟩ | ⟨free, rfl⟩
  · rw [slot]
    cases done
    rfl
  · rw [free]
    obtain ⟨found, read, made⟩ := bind_eq_ok_iff.mp done
    cases made
    exact read

/-- The value of an expression is denoted by the expression's own reference. -/
theorem denoted_of_eval (wellTyped : typing.WellTyped references scope typed)
    (reads : ReadsDenoted typing references roots context scope bound frame)
    (compiled : compile references bound typed used = .ok (op, next))
    (done : op.eval environment context frame = .ok (value, after))
    (own : typed.reference? = some reference) :
    typing.DenotedBy references roots reference value := by
  induction wellTyped generalizing op next value after reference with
  | symbol found =>
      obtain rfl := Option.some.inj own
      exact reads _ _ _ found (eval_compiled_symbol compiled done)
  | get ownObject _ _ entry _ ih =>
      obtain rfl := Option.some.inj own
      simp only [compile] at compiled
      obtain ⟨⟨object, free⟩, compiledObject, made⟩ := bind_eq_ok_iff.mp compiled
      cases made
      rw [eval_get] at done
      obtain ⟨⟨found, middle⟩, doneObject, done⟩ := bind_eq_ok_iff.mp done
      obtain ⟨result, read, made⟩ := bind_eq_ok_iff.mp done
      cases made
      have denoted := ih reads compiledObject doneObject ownObject
      refine .attribute entry denoted ?_
      rw [Value.readAttribute] at read
      split at read
      · next same => exact same.trans (congrArg some (Except.ok.inj read))
      · cases read
  | constant | each | ifElse | ifSome | call | list | map => cases own

/-! What an entered part finds -/

/--
An operation is what a well-typed expression compiles to, and it is evaluated in a frame that has
room for its slots and where names in scope read what their references denote.
-/
structure Situated (typing : Typing) (references : References)
    (roots : List (String × Option Value)) (context : Value) (scope : Scope) (bound : Slots)
    (used next : Nat) (typed : Typed) (op : Op) (frame : Frame) : Prop where
  wellTyped : typing.WellTyped references scope typed
  compiled : compile references bound typed used = .ok (op, next)
  covers : Covers references scope bound
  below : bound.Below used
  room : next ≤ frame.length
  reads : ReadsDenoted typing references roots context scope bound frame

def StandsFor (typing : Typing) (references : References) (roots : List (String × Option Value))
    (context : Value) (typed : Typed) (op : Op) (frame : Frame) : Prop :=
  ∃ scope bound used next,
    Situated typing references roots context scope bound used next typed op frame

namespace Situated

variable {inner : Typed} {start last : Nat} {name : String}

theorem beside (situated : Situated typing references roots context scope bound used next typed op
      frame) (wellTyped : typing.WellTyped references scope inner)
    (compiled : compile references bound inner start = .ok (part, last)) (later : used ≤ start)
    (within : last ≤ next) (keeps : frame.Keeps used after) :
    StandsFor typing references roots context inner part after := by
  have room : last ≤ after.length := by
    rw [keeps.length]
    exact Nat.le_trans within situated.room
  exact ⟨scope, bound, start, last, wellTyped, compiled, situated.covers,
    situated.below.weaken later, room, situated.reads.keeps situated.below keeps⟩

theorem binds (situated : Situated typing references roots context scope bound used next typed op
      frame) (wellTyped : typing.WellTyped references ((name, reference) :: scope) inner)
    (compiled : compile references ((name, free) :: bound) inner (free + 1) = .ok (part, last))
    (later : used ≤ free) (within : last ≤ next) (keeps : frame.Keeps used after)
    (denoted : typing.DenotedBy references roots reference value) :
    StandsFor typing references roots context inner part (after.set free value) := by
  have below := situated.below.weaken later
  have covers := situated.covers.cons name reference free
  have grows := (computes_of_compile wellTyped covers (below.cons name) compiled).grows
  have room : last ≤ after.length := by
    rw [keeps.length]
    exact Nat.le_trans within situated.room
  have reads := situated.reads.keeps situated.below keeps
  exact ⟨_, _, free + 1, last, wellTyped, compiled, covers, below.cons name,
    by rw [List.length_set]; exact room, reads.cons below (by omega) name denoted⟩

theorem listed (situated : Situated typing references roots context scope bound used next typed op
      frame) {items : List Typed} {before rest : List Op} {values : List Value}
    (wellTyped : ∀ item ∈ items, typing.WellTyped references scope item)
    (compiled : compileList references bound items used = .ok (before ++ part :: rest, next))
    (ran : evalList environment context before frame = .ok (values, after)) :
    ∃ inner, items[before.length]? = some inner ∧
      StandsFor typing references roots context inner part after := by
  obtain ⟨inner, start, free, found, member, compiledInner, later, within, keeps⟩ :=
    compileList_at wellTyped situated.covers situated.below compiled
  exact ⟨inner, found, situated.beside (wellTyped inner member) compiledInner later within
    (keeps frame values after situated.room ran)⟩

end Situated

/-! Entered parts stand for parts of the expression, form by form -/

def PartsStand (typing : Typing) (references : References) (roots : List (String × Option Value))
    (environment : Environment) (context : Value) (typed : Typed) (op : Op) (frame : Frame) :
    Prop :=
  ∀ position part after, Enters environment context op frame position part after →
    ∃ inner, typed.parts[position]? = some inner ∧
      StandsFor typing references roots context inner part after

theorem Situated.parts_symbol {name : String} (situated : Situated typing references roots context
      scope bound used next (.symbol reference name) op frame) :
    PartsStand typing references roots environment context (.symbol reference name) op frame := by
  intro position part after enters
  rcases compile_symbol_cases situated.compiled with ⟨_, _, rfl⟩ | ⟨_, rfl⟩ <;> cases enters

theorem Situated.parts_get {object : Typed} {name : String} (situated : Situated typing references
      roots context scope bound used next (.get reference object name) op frame) :
    PartsStand typing references roots environment context (.get reference object name) op
      frame := by
  intro position part after enters
  have compiled := situated.compiled
  simp only [compile] at compiled
  obtain ⟨⟨objectOp, free⟩, compiledObject, made⟩ := bind_eq_ok_iff.mp compiled
  cases made
  cases situated.wellTyped with
  | get _ _ _ _ wellTyped =>
      cases enters
      exact ⟨object, rfl, situated.beside wellTyped compiledObject (Nat.le_refl used)
        (Nat.le_refl free) (.refl used frame)⟩

theorem Situated.parts_each {binder : Binder} {collection body : Typed} (situated : Situated typing
      references roots context scope bound used next (.each binder collection body) op frame) :
    PartsStand typing references roots environment context (.each binder collection body) op
      frame := by
  intro position part after enters
  have compiled := situated.compiled
  have room := situated.room
  simp only [compile] at compiled
  obtain ⟨⟨collectionOp, free⟩, compiledCollection, compiled⟩ := bind_eq_ok_iff.mp compiled
  obtain ⟨⟨bodyOp, last⟩, compiledBody, made⟩ := bind_eq_ok_iff.mp compiled
  cases made
  cases situated.wellTyped with
  | each own sequence entry wellTyped wellTypedBody =>
      have computes :=
        computes_of_compile wellTyped situated.covers situated.below compiledCollection
      have grows := computes.grows
      have computesBody := computes_of_compile wellTypedBody (situated.covers.cons _ _ _)
        ((situated.below.weaken grows).cons _) compiledBody
      have growsBody := computesBody.grows
      cases enters with
      | collection =>
          exact ⟨collection, rfl, situated.beside wellTyped compiledCollection (Nat.le_refl used)
            (by omega) (.refl used frame)⟩
      | body found ran =>
          -- the collection and the items before this one write to no slot of a name in scope
          have kept := computes.keeps (by omega) found
          have keeps := forEach_keeps (fun _ _ _ room done => computesBody.keeps room done)
            (by rw [kept.length]; exact room) ran
          have denoted := denoted_of_eval wellTyped situated.reads compiledCollection found own
          exact ⟨body, rfl, situated.binds wellTypedBody compiledBody grows (Nat.le_refl last)
            (kept.trans (keeps.weaken grows)) (.item entry sequence denoted (by simp))⟩

theorem Situated.parts_ifElse {test yes no : Typed} (situated : Situated typing references roots
      context scope bound used next (.ifElse test yes no) op frame) :
    PartsStand typing references roots environment context (.ifElse test yes no) op frame := by
  intro position part after enters
  have compiled := situated.compiled
  have room := situated.room
  simp only [compile] at compiled
  obtain ⟨⟨testOp, free⟩, compiledTest, compiled⟩ := bind_eq_ok_iff.mp compiled
  obtain ⟨⟨yesOp, middle⟩, compiledYes, compiled⟩ := bind_eq_ok_iff.mp compiled
  obtain ⟨⟨noOp, last⟩, compiledNo, made⟩ := bind_eq_ok_iff.mp compiled
  cases made
  cases situated.wellTyped with
  | ifElse wellTyped wellTypedYes wellTypedNo =>
      have computes := computes_of_compile wellTyped situated.covers situated.below compiledTest
      have grows := computes.grows
      have below := situated.below.weaken grows
      have growsYes := (computes_of_compile wellTypedYes situated.covers below compiledYes).grows
      have growsNo := (computes_of_compile wellTypedNo situated.covers (below.weaken growsYes)
        compiledNo).grows
      cases enters with
      | test =>
          exact ⟨test, rfl, situated.beside wellTyped compiledTest (Nat.le_refl used) (by omega)
            (.refl used frame)⟩
      | yes found _ =>
          exact ⟨yes, rfl, situated.beside wellTypedYes compiledYes grows growsNo
            (computes.keeps (by omega) found)⟩
      | no found _ =>
          exact ⟨no, rfl, situated.beside wellTypedNo compiledNo (Nat.le_trans grows growsYes)
            (Nat.le_refl last) (computes.keeps (by omega) found)⟩

theorem Situated.parts_ifSome {binder : Binder} {value yes no : Typed} (situated : Situated typing
      references roots context scope bound used next (.ifSome binder value yes no) op frame) :
    PartsStand typing references roots environment context (.ifSome binder value yes no) op
      frame := by
  intro position part after enters
  have compiled := situated.compiled
  have room := situated.room
  simp only [compile] at compiled
  obtain ⟨⟨valueOp, free⟩, compiledValue, compiled⟩ := bind_eq_ok_iff.mp compiled
  obtain ⟨⟨yesOp, middle⟩, compiledYes, compiled⟩ := bind_eq_ok_iff.mp compiled
  obtain ⟨⟨noOp, last⟩, compiledNo, made⟩ := bind_eq_ok_iff.mp compiled
  cases made
  cases situated.wellTyped with
  | ifSome own presents wellTyped wellTypedYes wellTypedNo =>
      have computes := computes_of_compile wellTyped situated.covers situated.below compiledValue
      have grows := computes.grows
      have growsYes := (computes_of_compile wellTypedYes (situated.covers.cons _ _ _)
        ((situated.below.weaken grows).cons _) compiledYes).grows
      have growsNo := (computes_of_compile wellTypedNo situated.covers
        (situated.below.weaken (by omega)) compiledNo).grows
      cases enters with
      | bound =>
          exact ⟨value, rfl, situated.beside wellTyped compiledValue (Nat.le_refl used) (by omega)
            (.refl used frame)⟩
      | present found notNull =>
          have denoted := denoted_of_eval wellTyped situated.reads compiledValue found own
          exact ⟨yes, rfl, situated.binds wellTypedYes compiledYes grows growsNo
            (computes.keeps (by omega) found) (presents.denoted denoted notNull)⟩
      | absent found =>
          exact ⟨no, rfl, situated.beside wellTypedNo compiledNo (by omega) (Nat.le_refl last)
            (computes.keeps (by omega) found)⟩

theorem Situated.parts_call {function : String} {params : List Ty} {args : List Typed}
    (situated : Situated typing references roots context scope bound used next
      (.call function params args) op frame) :
    PartsStand typing references roots environment context (.call function params args) op
      frame := by
  intro position part after enters
  have compiled := situated.compiled
  simp only [compile] at compiled
  obtain ⟨⟨ops, last⟩, compiledArgs, made⟩ := bind_eq_ok_iff.mp compiled
  cases made
  cases situated.wellTyped with
  | call _ _ _ _ wellTyped =>
      cases enters with
      | arg _ ran => exact situated.listed wellTyped compiledArgs ran

theorem Situated.parts_list {items : List Typed} (situated : Situated typing references roots
      context scope bound used next (.list items) op frame) :
    PartsStand typing references roots environment context (.list items) op frame := by
  intro position part after enters
  have compiled := situated.compiled
  simp only [compile] at compiled
  obtain ⟨⟨ops, last⟩, compiledItems, made⟩ := bind_eq_ok_iff.mp compiled
  cases made
  cases situated.wellTyped with
  | list wellTyped =>
      cases enters with
      | item ran => exact situated.listed wellTyped compiledItems ran

theorem Situated.parts_map {entries : List (String × Typed)} (situated : Situated typing references
      roots context scope bound used next (.map entries) op frame) :
    PartsStand typing references roots environment context (.map entries) op frame := by
  intro position part after enters
  have compiled := situated.compiled
  simp only [compile] at compiled
  obtain ⟨⟨ops, last⟩, compiledEntries, made⟩ := bind_eq_ok_iff.mp compiled
  cases made
  cases situated.wellTyped with
  | map wellTyped =>
      have wellTyped := List.forall_mem_map.mpr wellTyped
      cases enters with
      | entry ran =>
          -- an entry stands at the place of its value
          have compiledValues := compileList_of_entries compiledEntries
          rw [List.append_eq, List.map_append, List.map_cons] at compiledValues
          have stands := situated.listed wellTyped compiledValues (evalList_of_entries ran)
          rwa [List.length_map] at stands

theorem StandsFor.parts (stands : StandsFor typing references roots context typed op frame) :
    PartsStand typing references roots environment context typed op frame := by
  obtain ⟨scope, bound, used, next, situated⟩ := stands
  cases typed with
  | symbol => exact situated.parts_symbol
  | constant =>
      intro position part after enters
      cases situated.compiled
      cases enters
  | get => exact situated.parts_get
  | each => exact situated.parts_each
  | ifElse => exact situated.parts_ifElse
  | ifSome => exact situated.parts_ifSome
  | call => exact situated.parts_call
  | list => exact situated.parts_list
  | map => exact situated.parts_map

/-- Whatever an evaluation reaches stands for the part of the expression at the same path. -/
theorem StandsFor.reaches (stands : StandsFor typing references roots context typed op frame)
    (reaches : Reaches environment context op frame path part final) :
    ∃ inner, typed.at? path = some inner ∧
      StandsFor typing references roots context inner part final := by
  induction reaches generalizing typed with
  | refl => exact ⟨typed, rfl, stands⟩
  | step enters _ ih =>
      obtain ⟨between, found, standsToo⟩ := stands.parts _ _ _ enters
      obtain ⟨inner, foundInner, standsInner⟩ := ih standsToo
      exact ⟨inner, by simp [Typed.at?, found, foundInner], standsInner⟩

theorem StandsFor.denoted (stands : StandsFor typing references roots context typed op frame)
    (done : op.eval environment context frame = .ok (value, after))
    (own : typed.reference? = some reference) :
    typing.DenotedBy references roots reference value := by
  obtain ⟨scope, bound, used, next, situated⟩ := stands
  exact denoted_of_eval situated.wellTyped situated.reads situated.compiled done own

end Op

end GraphQuery
