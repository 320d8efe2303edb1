import GraphQuery.Proofs.Conformance
import GraphQuery.Proofs.Typed.Interpret
import GraphQuery.Proofs.Typed.Judgement

/-!
Well-typed expressions go wrong in functions only: while the names in scope read values that conform
to their references, every part gives a value that conforms to its reference, or an error that some
function raised.
-/

namespace GraphQuery

def EvalError.RaisedIn (environment : Environment) (error : EvalError) : Prop :=
  ∃ name function args message, environment.find? name = some function ∧
    function.call args = .error message ∧ error = .functionFailed name message

def Safe {α : Type} (environment : Environment) (result : Except EvalError α)
    (holds : α → Prop) : Prop :=
  (∃ value, result = .ok value ∧ holds value) ∨
    ∃ error, result = .error error ∧ error.RaisedIn environment

namespace Safe

variable {α β : Type} {environment : Environment} {result : Except EvalError α}
  {holds other : α → Prop}

theorem ok {value : α} (held : holds value) : Safe environment (.ok value) holds :=
  Or.inl ⟨value, rfl, held⟩

theorem bind {next : α → Except EvalError β} {after : β → Prop}
    (first : Safe environment result holds)
    (second : ∀ value, holds value → Safe environment (next value) after) :
    Safe environment (result >>= next) after := by
  rcases first with ⟨value, rfl, held⟩ | ⟨error, rfl, raised⟩
  · exact second value held
  · exact Or.inr ⟨error, rfl, raised⟩

theorem weaken (safe : Safe environment result holds)
    (implies : ∀ value, holds value → other value) : Safe environment result other := by
  rcases safe with ⟨value, same, held⟩ | raised
  · exact Or.inl ⟨value, same, implies value held⟩
  · exact Or.inr raised

theorem mapM {body : β → Except EvalError α} {items : List β}
    (each : ∀ item ∈ items, Safe environment (body item) holds) :
    Safe environment (items.mapM body) fun _ => True := by
  induction items with
  | nil => exact ok trivial
  | cons item rest ih =>
      rw [List.mapM_cons]
      refine bind (each item List.mem_cons_self) fun value _ => ?_
      exact bind (ih fun other member => each other (List.mem_cons_of_mem item member))
        fun values _ => ok trivial

theorem apply {name : String} {function : Function} (args : List Value)
    (found : environment.find? name = some function) :
    Safe environment (function.apply name args) fun _ => True := by
  cases called : function.call args with
  | ok value => exact Or.inl ⟨value, by simp [Function.apply, called, Except.mapError], trivial⟩
  | error message =>
      refine Or.inr ⟨.functionFailed name message, ?_, ?_⟩
      · simp [Function.apply, called, Except.mapError]
      · exact ⟨name, function, args, message, found, called, rfl⟩

end Safe

namespace Typing

variable {typing : Typing} {unresolved : NameKind → String → Value → Prop}
  {references : References} {scope : Scope} {context : Value} {bindings : Bindings}

def Denotes (typing : Typing) (unresolved : NameKind → String → Value → Prop)
    (references : References) (reference : Nat) (value : Value) : Prop :=
  typing.types.Conforms unresolved (references.ty reference) value

def Reads (typing : Typing) (unresolved : NameKind → String → Value → Prop)
    (references : References) (scope : Scope) (context : Value) (bindings : Bindings) : Prop :=
  ∀ name reference, scope.lookup name = some reference → ∃ value,
    bindings.read context name = .ok value ∧
      typing.Denotes unresolved references reference value

theorem Reads.cons (reads : typing.Reads unresolved references scope context bindings)
    (name : String) {reference : Nat} {value : Value}
    (denotes : typing.Denotes unresolved references reference value) :
    typing.Reads unresolved references ((name, reference) :: scope) context
      ((name, value) :: bindings) := by
  intro sought found lookup
  by_cases same : sought = name
  · subst same
    simp only [List.lookup_cons_self, Option.some.injEq] at lookup
    subst lookup
    exact ⟨value, by simp [Bindings.read], denotes⟩
  · have different : (sought == name) = false := beq_eq_false_iff_ne.mpr same
    simp only [List.lookup_cons, different] at lookup
    obtain ⟨held, read, denotesHeld⟩ := reads sought found lookup
    refine ⟨held, ?_, denotesHeld⟩
    simpa only [Bindings.read, List.lookup_cons, different] using read

theorem Presents.denotes {back reference : Nat} {value : Value}
    (presents : Presents typing references back reference)
    (denotes : typing.Denotes unresolved references back value) (notNull : value ≠ .null) :
    typing.Denotes unresolved references reference value := by
  rcases presents with ⟨item, optional, entry⟩ | ⟨_, same⟩
  · have inner := Registry.Conforms.item denotes optional notNull
    simpa only [Denotes, References.ty_of_get? entry] using inner
  · exact same ▸ denotes

def Fulfils (typing : Typing) (unresolved : NameKind → String → Value → Prop)
    (references : References) (typed : Typed) (value : Value) : Prop :=
  ∀ reference, typed.reference? = some reference →
    typing.Denotes unresolved references reference value

def Safely (typing : Typing) (unresolved : NameKind → String → Value → Prop)
    (references : References) (context : Value) (scope : Scope) (typed : Typed) : Prop :=
  ∀ bindings, typing.Reads unresolved references scope context bindings →
    Safe typing.functions (typed.interpret typing.functions context bindings)
      (typing.Fulfils unresolved references typed)

theorem safely_symbol {reference : Nat} {name : String}
    (found : scope.lookup name = some reference) :
    typing.Safely unresolved references context scope (.symbol reference name) := by
  intro bindings reads
  obtain ⟨value, read, denotes⟩ := reads name reference found
  simp only [Typed.interpret, read]
  refine Safe.ok ?_
  intro own same
  simp only [Typed.reference?, Option.some.injEq] at same
  exact same ▸ denotes

theorem safely_get {reference back : Nat} {object : Typed} {name : String}
    {fields : List (String × Ty)} {ty : Ty} (own : object.reference? = some back)
    (record : typing.typeOf references back = .record fields)
    (declared : Entries.find? fields name = some ty)
    (entry : references.get? reference = some ⟨some back, some name, ty⟩)
    (ih : typing.Safely unresolved references context scope object) :
    typing.Safely unresolved references context scope (.get reference object name) := by
  intro bindings reads
  simp only [Typed.interpret]
  refine Safe.bind (ih bindings reads) ?_
  intro value fulfils
  obtain ⟨found, lookup, conforms⟩ := (fulfils back own).get? record declared
  simp only [Value.readAttribute, lookup]
  refine Safe.ok ?_
  intro other same
  simp only [Typed.reference?, Option.some.injEq] at same
  subst same
  simpa only [Denotes, References.ty_of_get? entry] using conforms

theorem safely_each {binder : Binder} {collection body : Typed} {back : Nat} {ty : Ty}
    (own : collection.reference? = some back)
    (sequence : typing.typeOf references back = .sequence ty)
    (entry : references.get? binder.reference = some ⟨some back, none, ty⟩)
    (ihCollection : typing.Safely unresolved references context scope collection)
    (ihBody : typing.Safely unresolved references context
      ((binder.name, binder.reference) :: scope) body) :
    typing.Safely unresolved references context scope (.each binder collection body) := by
  intro bindings reads
  simp only [Typed.interpret]
  refine Safe.bind (ihCollection bindings reads) ?_
  intro value fulfils
  obtain ⟨items, rfl, conform⟩ := (fulfils back own).items sequence
  have bodies : ∀ item ∈ items, Safe typing.functions
      (body.interpret typing.functions context ((binder.name, item) :: bindings))
      fun _ => True := by
    intro item member
    have denotes : typing.Denotes unresolved references binder.reference item := by
      simpa only [Denotes, References.ty_of_get? entry] using conform item member
    exact (ihBody _ (reads.cons binder.name denotes)).weaken fun _ _ => trivial
  refine Safe.bind (Safe.mapM bodies) ?_
  intro values _
  exact Safe.ok (by simp [Fulfils, Typed.reference?])

theorem safely_ifElse {test yes no : Typed}
    (ihTest : typing.Safely unresolved references context scope test)
    (ihYes : typing.Safely unresolved references context scope yes)
    (ihNo : typing.Safely unresolved references context scope no) :
    typing.Safely unresolved references context scope (.ifElse test yes no) := by
  intro bindings reads
  simp only [Typed.interpret]
  refine Safe.bind (ihTest bindings reads) ?_
  intro value _
  split
  · exact (ihYes bindings reads).weaken fun _ _ => by simp [Fulfils, Typed.reference?]
  · exact (ihNo bindings reads).weaken fun _ _ => by simp [Fulfils, Typed.reference?]

theorem safely_ifSome {binder : Binder} {bound yes no : Typed} {back : Nat}
    (own : bound.reference? = some back)
    (presents : Presents typing references back binder.reference)
    (ihBound : typing.Safely unresolved references context scope bound)
    (ihYes : typing.Safely unresolved references context
      ((binder.name, binder.reference) :: scope) yes)
    (ihNo : typing.Safely unresolved references context scope no) :
    typing.Safely unresolved references context scope (.ifSome binder bound yes no) := by
  intro bindings reads
  simp only [Typed.interpret]
  refine Safe.bind (ihBound bindings reads) ?_
  intro value fulfils
  split
  · exact (ihNo bindings reads).weaken fun _ _ => by simp [Fulfils, Typed.reference?]
  · rename_i notNull
    have denotes := presents.denotes (fulfils back own) notNull
    exact (ihYes _ (reads.cons binder.name denotes)).weaken fun _ _ => by
      simp [Fulfils, Typed.reference?]

theorem safe_interpretList {items : List Typed}
    (ih : ∀ item ∈ items, typing.Safely unresolved references context scope item)
    (reads : typing.Reads unresolved references scope context bindings) :
    Safe typing.functions (Typed.interpretList typing.functions context items bindings)
      fun _ => True := by
  induction items with
  | nil =>
      simp only [Typed.interpretList]
      exact Safe.ok trivial
  | cons item rest ihRest =>
      simp only [Typed.interpretList]
      refine Safe.bind (ih item List.mem_cons_self bindings reads) fun value _ => ?_
      exact Safe.bind (ihRest fun other member => ih other (List.mem_cons_of_mem item member))
        fun values _ => Safe.ok trivial

theorem safe_interpretEntries {entries : List (String × Typed)}
    (ih : ∀ entry ∈ entries, typing.Safely unresolved references context scope entry.2)
    (reads : typing.Reads unresolved references scope context bindings) :
    Safe typing.functions (Typed.interpretEntries typing.functions context entries bindings)
      fun _ => True := by
  induction entries with
  | nil =>
      simp only [Typed.interpretEntries]
      exact Safe.ok trivial
  | cons entry rest ihRest =>
      obtain ⟨key, item⟩ := entry
      simp only [Typed.interpretEntries]
      refine Safe.bind (ih (key, item) List.mem_cons_self bindings reads) fun value _ => ?_
      exact Safe.bind (ihRest fun other member => ih other (List.mem_cons_of_mem _ member))
        fun values _ => Safe.ok trivial

theorem wellTyped_safely {typed : Typed} (wellTyped : WellTyped typing references scope typed)
    (unresolved : NameKind → String → Value → Prop) (context : Value) :
    typing.Safely unresolved references context scope typed := by
  induction wellTyped with
  | symbol found => exact safely_symbol found
  | constant =>
      intro bindings _
      simp only [Typed.interpret]
      exact Safe.ok (by simp [Fulfils, Typed.reference?])
  | get own record declared entry _ ih => exact safely_get own record declared entry ih
  | each own sequence entry _ _ ihCollection ihBody =>
      exact safely_each own sequence entry ihCollection ihBody
  | ifElse _ _ _ ihTest ihYes ihNo => exact safely_ifElse ihTest ihYes ihNo
  | ifSome own presents _ _ _ ihBound ihYes ihNo =>
      exact safely_ifSome own presents ihBound ihYes ihNo
  | call _ found _ _ _ ih =>
      intro bindings reads
      simp only [Typed.interpret, found]
      refine Safe.bind (safe_interpretList ih reads) fun values _ => ?_
      exact (Safe.apply values found).weaken fun _ _ => by simp [Fulfils, Typed.reference?]
  | list _ ih =>
      intro bindings reads
      simp only [Typed.interpret]
      refine Safe.bind (safe_interpretList ih reads) fun values _ => ?_
      exact Safe.ok (by simp [Fulfils, Typed.reference?])
  | map _ ih =>
      intro bindings reads
      simp only [Typed.interpret]
      refine Safe.bind (safe_interpretEntries ih reads) fun values _ => ?_
      exact Safe.ok (by simp [Fulfils, Typed.reference?])

end Typing

end GraphQuery
