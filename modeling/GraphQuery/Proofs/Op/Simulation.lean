import GraphQuery.Proofs.Typed.Interpret
import GraphQuery.Proofs.Typed.Judgement

/-!
Compiled expressions compute what the reference interpreter does. A part writes only to slots that
were free before it, so the frame keeps the values of all names in scope.
-/

namespace GraphQuery

namespace Op

mutual

def mentions : Op → List Nat
  | const _ => []
  | slot index => [index]
  | .context _ => []
  | get object _ => mentions object
  | each index collection body => index :: (mentions collection ++ mentions body)
  | ifElse test yes no => mentions test ++ mentions yes ++ mentions no
  | ifSome index bound yes no => index :: (mentions bound ++ mentions yes ++ mentions no)
  | call _ args => mentionsList args
  | list items => mentionsList items
  | map entries => mentionsEntries entries

def mentionsList : List Op → List Nat
  | [] => []
  | op :: rest => mentions op ++ mentionsList rest

def mentionsEntries : List (String × Op) → List Nat
  | [] => []
  | (_, op) :: rest => mentions op ++ mentionsEntries rest

end

theorem eval_of_path? (environment : Environment) {context : Value} {frame : Frame} {op : Op}
    {found : Except EvalError Value} (path : path? context frame op = some found) :
    eval environment context op frame = found.map fun value => (value, frame) := by
  cases op with
  | slot index =>
      simp only [path?, Option.some.injEq] at path
      subst path
      simp [eval, Except.map]
  | context name =>
      simp only [path?, Option.some.injEq] at path
      subst path
      cases read : context.readContext name <;> simp [eval, read, Except.map]
  | get object name =>
      simp only [path?] at path
      obtain ⟨inner, innerPath, rfl⟩ := Option.map_eq_some_iff.mp path
      simp only [eval, innerPath]
      cases inner with
      | error error => simp [Except.map, Except.bind]
      | ok value => cases read : value.readAttribute name <;> simp [Except.map, Except.bind, read]
  | const | each | ifElse | ifSome | call | list | map => simp [path?] at path

/-- Reading an attribute is evaluating the object and looking the attribute up. -/
theorem eval_get (environment : Environment) (context : Value) (object : Op) (name : String)
    (frame : Frame) :
    eval environment context (get object name) frame = (do
      let (value, frame) ← eval environment context object frame
      let value ← value.readAttribute name
      .ok (value, frame)) := by
  cases path : path? context frame object with
  | none => simp only [eval, path]
  | some found =>
      rw [eval_of_path? environment path]
      simp only [eval, path]
      cases found <;> rfl

end Op

namespace Frame

structure Keeps (used : Nat) (frame after : Frame) : Prop where
  length : after.length = frame.length
  read : ∀ slot, slot < used → after.read slot = frame.read slot

namespace Keeps

variable {used more : Nat} {frame middle after : Frame}

theorem refl (used : Nat) (frame : Frame) : frame.Keeps used frame :=
  ⟨rfl, fun _ _ => rfl⟩

theorem trans (first : frame.Keeps used middle) (second : middle.Keeps used after) :
    frame.Keeps used after :=
  ⟨second.length.trans first.length, fun slot below =>
    (second.read slot below).trans (first.read slot below)⟩

theorem weaken (keeps : frame.Keeps more after) (fewer : used ≤ more) :
    frame.Keeps used after :=
  ⟨keeps.length, fun slot below => keeps.read slot (by omega)⟩

theorem set {index : Nat} (free : used ≤ index) (value : Value) :
    frame.Keeps used (frame.set index value) := by
  refine ⟨List.length_set, ?_⟩
  intro slot below
  have different : index ≠ slot := by omega
  simp [Frame.read, List.getD_eq_getElem?_getD, List.getElem?_set_ne different]

end Keeps

theorem read_set_self {frame : Frame} {index : Nat} (inside : index < frame.length)
    (value : Value) : Frame.read (frame.set index value) index = value := by
  simp [Frame.read, List.getD_eq_getElem?_getD, inside]

end Frame

def Yields {α : Type} (used : Nat) (frame : Frame) (outcome : Except EvalError (α × Frame)) :
    Except EvalError α → Prop
  | .ok value => ∃ after, outcome = .ok (value, after) ∧ frame.Keeps used after
  | .error error => outcome = .error error

namespace Yields

variable {α β : Type} {used more : Nat} {frame : Frame}

theorem ok {value : α} : Yields used frame (.ok (value, frame)) (.ok value) :=
  ⟨frame, rfl, .refl used frame⟩

theorem weaken {outcome : Except EvalError (α × Frame)} {result : Except EvalError α}
    (yields : Yields more frame outcome result) (fewer : used ≤ more) :
    Yields used frame outcome result := by
  cases result with
  | error error => exact yields
  | ok value =>
      obtain ⟨after, same, keeps⟩ := yields
      exact ⟨after, same, keeps.weaken fewer⟩

theorem bind {outcome : Except EvalError (α × Frame)} {result : Except EvalError α}
    {next : α × Frame → Except EvalError (β × Frame)} {rest : α → Except EvalError β}
    (head : Yields used frame outcome result)
    (tail : ∀ value after, frame.Keeps used after →
      Yields used after (next (value, after)) (rest value)) :
    Yields used frame (outcome >>= next) (result >>= rest) := by
  cases result with
  | error error =>
      have failed : outcome = .error error := head
      rw [failed]
      exact rfl
  | ok value =>
      obtain ⟨after, same, keeps⟩ := head
      rw [same]
      have last := tail value after keeps
      simp only [ok_bind]
      cases done : rest value with
      | error error =>
          rw [done] at last
          exact last
      | ok final =>
          rw [done] at last
          obtain ⟨afterToo, sameToo, keepsToo⟩ := last
          exact ⟨afterToo, sameToo, keeps.trans keepsToo⟩

theorem pure {result : Except EvalError α} :
    Yields used frame (result >>= fun value => .ok (value, frame)) result := by
  cases result with
  | error error => exact rfl
  | ok value => exact ok

theorem after {middle : Frame} {outcome : Except EvalError (α × Frame)}
    {result : Except EvalError α} (yields : Yields used middle outcome result)
    (keeps : frame.Keeps used middle) : Yields used frame outcome result := by
  cases result with
  | error error => exact yields
  | ok value =>
      obtain ⟨last, same, keepsToo⟩ := yields
      exact ⟨last, same, keeps.trans keepsToo⟩

theorem forEach {body : Frame → Except EvalError (Value × Frame)} {index : Nat}
    {result : Value → Except EvalError Value}
    (each : ∀ item before, frame.Keeps used before →
      Yields used before (body (before.set index item)) (result item)) (items : List Value) :
    ∀ before, frame.Keeps used before →
      Yields used before (Op.forEach body index items before) (items.mapM result) := by
  induction items with
  | nil =>
      intro before _
      exact ok
  | cons item rest ih =>
      intro before keeps
      rw [List.mapM_cons]
      refine bind (each item before keeps) fun value after keepsItem => ?_
      exact bind (ih after (keeps.trans keepsItem)) fun values last _ => ok

end Yields

/-! The invariant of compiled parts -/

namespace Op

attribute [local simp] compile eval Typed.interpret

def Covers (references : References) (scope : Scope) (bound : Slots) : Prop :=
  ∀ name reference, scope.lookup name = some reference → bound.lookup name = none →
    ∃ root, references.get? reference = some root ∧ root.back? = none

def Slots.Below (bound : Slots) (used : Nat) : Prop :=
  ∀ name slot, bound.lookup name = some slot → slot < used

def Holds (bound : Slots) (frame : Frame) (bindings : Bindings) : Prop :=
  ∀ name, bindings.lookup name = (bound.lookup name).map frame.read

/-- A part computes a result with slots from one number up to another. -/
structure Computes {α : Type} (bound : Slots) (used next : Nat) (mentioned : List Nat)
    (run : Environment → Value → Frame → Except EvalError (α × Frame))
    (result : Environment → Value → Bindings → Except EvalError α) : Prop where
  grows : used ≤ next
  inRange : ∀ slot ∈ mentioned, slot < next
  yields : ∀ environment context frame bindings, next ≤ frame.length →
    Holds bound frame bindings →
    Yields used frame (run environment context frame) (result environment context bindings)

variable {references : References} {scope : Scope} {bound : Slots} {used free : Nat}
  {frame after : Frame} {bindings : Bindings}

theorem Covers.cons (covers : Covers references scope bound) (name : String)
    (reference slot : Nat) :
    Covers references ((name, reference) :: scope) ((name, slot) :: bound) := by
  intro sought found lookup unbound
  by_cases same : sought = name
  · simp [same] at unbound
  · have different : (sought == name) = false := beq_eq_false_iff_ne.mpr same
    simp only [List.lookup_cons, different] at lookup unbound
    exact covers sought found lookup unbound

theorem Slots.Below.weaken (below : bound.Below used) (fewer : used ≤ free) :
    bound.Below free :=
  fun name slot lookup => Nat.lt_of_lt_of_le (below name slot lookup) fewer

theorem Slots.Below.cons (below : bound.Below free) (name : String) :
    Slots.Below ((name, free) :: bound) (free + 1) := by
  intro sought slot lookup
  by_cases same : sought = name
  · simp only [same, List.lookup_cons_self, Option.some.injEq] at lookup
    omega
  · have different : (sought == name) = false := beq_eq_false_iff_ne.mpr same
    simp only [List.lookup_cons, different] at lookup
    have := below sought slot lookup
    omega

theorem Holds.keeps (holds : Holds bound frame bindings) (below : bound.Below used)
    (keeps : frame.Keeps used after) : Holds bound after bindings := by
  intro name
  rw [holds name]
  cases lookup : bound.lookup name with
  | none => rfl
  | some slot => simp [keeps.read slot (below name slot lookup)]

theorem Holds.bind (holds : Holds bound frame bindings) (below : bound.Below free)
    (inside : free < frame.length) (name : String) (value : Value) :
    Holds ((name, free) :: bound) (frame.set free value) ((name, value) :: bindings) := by
  intro sought
  by_cases same : sought = name
  · simp [same, Frame.read_set_self inside]
  · have different : (sought == name) = false := beq_eq_false_iff_ne.mpr same
    simp only [List.lookup_cons, different]
    exact holds.keeps below (Frame.Keeps.set (Nat.le_refl free) value) sought

namespace Computes

variable {α : Type} {next start : Nat} {mentioned : List Nat}
  {run : Environment → Value → Frame → Except EvalError (α × Frame)}
  {result : Environment → Value → Bindings → Except EvalError α}

theorem yieldsAfter (computes : Computes bound start next mentioned run result)
    (below : bound.Below used) (later : used ≤ start) (keeps : frame.Keeps used after)
    (room : next ≤ frame.length) (holds : Holds bound frame bindings)
    (environment : Environment) (context : Value) :
    Yields used after (run environment context after) (result environment context bindings) :=
  (computes.yields environment context after bindings (by rw [keeps.length]; exact room)
    (holds.keeps below keeps)).weaken later

theorem yieldsBound {name : String}
    (computes : Computes ((name, free) :: bound) (free + 1) next mentioned run result)
    (below : bound.Below free) (keeps : frame.Keeps free after)
    (room : next ≤ frame.length) (holds : Holds bound frame bindings) (value : Value)
    (environment : Environment) (context : Value) :
    Yields free after (run environment context (after.set free value))
      (result environment context ((name, value) :: bindings)) := by
  have grows := computes.grows
  have sameLength := keeps.length
  have holdsBound := (holds.keeps below keeps).bind below (by omega) name value
  have yields := computes.yields environment context (after.set free value) _
    (by rw [List.length_set]; omega) holdsBound
  exact (yields.weaken (by omega)).after (.set (Nat.le_refl free) value)

end Computes

def CompilesTo (references : References) (scope : Scope) (typed : Typed) : Prop :=
  ∀ bound used, Covers references scope bound → bound.Below used →
    ∃ op next, compile references bound typed used = .ok (op, next) ∧
      Computes bound used next op.mentions (fun environment context => op.eval environment context)
        (fun environment context => typed.interpret environment context)

theorem compilesTo_symbol {reference : Nat} {name : String}
    (found : scope.lookup name = some reference) :
    CompilesTo references scope (.symbol reference name) := by
  intro bound used covers below
  cases slot : bound.lookup name with
  | some index =>
      refine ⟨.slot index, used, by simp [compile, slot], Nat.le_refl used, ?_, ?_⟩
      · simpa [mentions] using below name index slot
      · intro environment context frame bindings _ holds
        simp only [eval, Typed.interpret, Bindings.read, holds name, slot, Option.map_some]
        exact Yields.ok
  | none =>
      obtain ⟨root, entry, noBack⟩ := covers name reference found slot
      refine ⟨.context name, used, by simp [compile, slot, ofRoot, entry, noBack],
        Nat.le_refl used, by simp [mentions], ?_⟩
      intro environment context frame bindings _ holds
      simp only [eval, Typed.interpret, Bindings.read, holds name, slot, Option.map_none]
      exact Yields.pure

theorem compilesTo_get {reference : Nat} {object : Typed} {name : String}
    (ih : CompilesTo references scope object) :
    CompilesTo references scope (.get reference object name) := by
  intro bound used covers below
  obtain ⟨op, next, compiled, computes⟩ := ih bound used covers below
  refine ⟨.get op name, next, by simp [compile, compiled], computes.grows, computes.inRange, ?_⟩
  intro environment context frame bindings room holds
  simp only [eval_get, Typed.interpret]
  refine Yields.bind (computes.yields environment context frame bindings room holds) ?_
  exact fun value after _ => Yields.pure

theorem compilesTo_constant {atom : Atom} : CompilesTo references scope (.constant atom) := by
  intro bound used covers below
  refine ⟨.const atom.value, used, by simp [compile], Nat.le_refl used, by simp [mentions], ?_⟩
  intro environment context frame bindings _ _
  simp only [eval, Typed.interpret]
  exact Yields.ok

theorem compilesTo_each {binder : Binder} {collection body : Typed}
    (ihCollection : CompilesTo references scope collection)
    (ihBody : CompilesTo references ((binder.name, binder.reference) :: scope) body) :
    CompilesTo references scope (.each binder collection body) := by
  intro bound used covers below
  obtain ⟨collectionOp, free, compiledCollection, computesCollection⟩ :=
    ihCollection bound used covers below
  have grows := computesCollection.grows
  have belowFree := below.weaken grows
  obtain ⟨bodyOp, next, compiledBody, computesBody⟩ :=
    ihBody ((binder.name, free) :: bound) (free + 1) (covers.cons _ _ _) (belowFree.cons _)
  have growsBody := computesBody.grows
  refine ⟨.each free collectionOp bodyOp, next,
    by simp [compile, compiledCollection, compiledBody], by omega, ?_, ?_⟩
  · intro slot member
    simp only [mentions, List.mem_cons, List.mem_append] at member
    rcases member with rfl | member | member
    · omega
    · have := computesCollection.inRange slot member
      omega
    · exact computesBody.inRange slot member
  · intro environment context frame bindings room holds
    simp only [eval, Typed.interpret]
    refine Yields.bind
      (computesCollection.yields environment context frame bindings (by omega) holds) ?_
    intro value middle keeps
    cases value with
    | list items =>
        refine Yields.bind ?_ fun values after _ => Yields.ok
        have holdsMiddle := holds.keeps below keeps
        have sameLength := keeps.length
        refine (Yields.forEach ?_ items middle (.refl free middle)).weaken grows
        intro item before keepsBefore
        exact computesBody.yieldsBound belowFree (keepsBefore) (by omega) holdsMiddle item
          environment context
    | _ => exact rfl

theorem compilesTo_ifElse {test yes no : Typed} (ihTest : CompilesTo references scope test)
    (ihYes : CompilesTo references scope yes) (ihNo : CompilesTo references scope no) :
    CompilesTo references scope (.ifElse test yes no) := by
  intro bound used covers below
  obtain ⟨testOp, afterTest, compiledTest, computesTest⟩ := ihTest bound used covers below
  have growsTest := computesTest.grows
  obtain ⟨yesOp, afterYes, compiledYes, computesYes⟩ :=
    ihYes bound afterTest covers (below.weaken growsTest)
  have growsYes := computesYes.grows
  obtain ⟨noOp, next, compiledNo, computesNo⟩ :=
    ihNo bound afterYes covers (below.weaken (by omega))
  have growsNo := computesNo.grows
  refine ⟨.ifElse testOp yesOp noOp, next,
    by simp [compile, compiledTest, compiledYes, compiledNo], by omega, ?_, ?_⟩
  · intro slot member
    simp only [mentions, List.mem_append] at member
    rcases member with (member | member) | member
    · have := computesTest.inRange slot member
      omega
    · have := computesYes.inRange slot member
      omega
    · exact computesNo.inRange slot member
  · intro environment context frame bindings room holds
    simp only [eval, Typed.interpret]
    refine Yields.bind
      (computesTest.yields environment context frame bindings (by omega) holds) ?_
    intro value middle keeps
    by_cases truthy : value.isTruthy
    · simp only [truthy, if_true]
      exact computesYes.yieldsAfter below growsTest keeps (by omega) holds environment context
    · simp only [truthy, Bool.false_eq_true, if_false]
      exact computesNo.yieldsAfter below (by omega) keeps room holds environment context

theorem compilesTo_ifSome {binder : Binder} {value yes no : Typed}
    (ihValue : CompilesTo references scope value)
    (ihYes : CompilesTo references ((binder.name, binder.reference) :: scope) yes)
    (ihNo : CompilesTo references scope no) :
    CompilesTo references scope (.ifSome binder value yes no) := by
  intro bound used covers below
  obtain ⟨valueOp, free, compiledValue, computesValue⟩ := ihValue bound used covers below
  have grows := computesValue.grows
  have belowFree := below.weaken grows
  obtain ⟨yesOp, afterYes, compiledYes, computesYes⟩ :=
    ihYes ((binder.name, free) :: bound) (free + 1) (covers.cons _ _ _) (belowFree.cons _)
  have growsYes := computesYes.grows
  obtain ⟨noOp, next, compiledNo, computesNo⟩ :=
    ihNo bound afterYes covers (below.weaken (by omega))
  have growsNo := computesNo.grows
  refine ⟨.ifSome free valueOp yesOp noOp, next,
    by simp [compile, compiledValue, compiledYes, compiledNo], by omega, ?_, ?_⟩
  · intro slot member
    simp only [mentions, List.mem_cons, List.mem_append] at member
    rcases member with rfl | (member | member) | member
    · omega
    · have := computesValue.inRange slot member
      omega
    · have := computesYes.inRange slot member
      omega
    · exact computesNo.inRange slot member
  · intro environment context frame bindings room holds
    simp only [eval, Typed.interpret]
    refine Yields.bind
      (computesValue.yields environment context frame bindings (by omega) holds) ?_
    intro found middle keeps
    have holdsMiddle := holds.keeps below keeps
    have sameLength := keeps.length
    cases found with
    | null =>
        exact computesNo.yieldsAfter below (by omega) keeps room holds environment context
    | _ =>
        exact (computesYes.yieldsBound belowFree (.refl free middle) (by omega) holdsMiddle _
          environment context).weaken grows

/-! Parts that stand side by side -/

theorem compileList_computes {items : List Typed}
    (ih : ∀ item ∈ items, CompilesTo references scope item) (bound : Slots) (used : Nat)
    (covers : Covers references scope bound) (below : bound.Below used) :
    ∃ ops next, compileList references bound items used = .ok (ops, next) ∧
      Computes bound used next (mentionsList ops)
        (fun environment context => evalList environment context ops)
        (fun environment context => Typed.interpretList environment context items) := by
  induction items generalizing used with
  | nil =>
      refine ⟨[], used, by simp [compileList], Nat.le_refl used, by simp [mentionsList], ?_⟩
      intro environment context frame bindings _ _
      simp only [evalList, Typed.interpretList]
      exact Yields.ok
  | cons item rest ihRest =>
      obtain ⟨op, free, compiled, computes⟩ := ih item List.mem_cons_self bound used covers below
      have grows := computes.grows
      obtain ⟨ops, next, compiledRest, computesRest⟩ :=
        ihRest (fun other member => ih other (List.mem_cons_of_mem item member)) free
          (below.weaken grows)
      have growsRest := computesRest.grows
      refine ⟨op :: ops, next, by simp [compileList, compiled, compiledRest], by omega, ?_, ?_⟩
      · intro slot member
        simp only [mentionsList, List.mem_append] at member
        rcases member with member | member
        · have := computes.inRange slot member
          omega
        · exact computesRest.inRange slot member
      · intro environment context frame bindings room holds
        simp only [evalList, Typed.interpretList]
        refine Yields.bind
          (computes.yields environment context frame bindings (by omega) holds) ?_
        intro value middle keeps
        refine Yields.bind ?_ fun values after _ => Yields.ok
        exact computesRest.yieldsAfter below grows keeps room holds environment context

theorem compileEntries_computes {entries : List (String × Typed)}
    (ih : ∀ entry ∈ entries, CompilesTo references scope entry.2) (bound : Slots) (used : Nat)
    (covers : Covers references scope bound) (below : bound.Below used) :
    ∃ ops next, compileEntries references bound entries used = .ok (ops, next) ∧
      Computes bound used next (mentionsEntries ops)
        (fun environment context => evalEntries environment context ops)
        (fun environment context => Typed.interpretEntries environment context entries) := by
  induction entries generalizing used with
  | nil =>
      refine ⟨[], used, by simp [compileEntries], Nat.le_refl used, by simp [mentionsEntries], ?_⟩
      intro environment context frame bindings _ _
      simp only [evalEntries, Typed.interpretEntries]
      exact Yields.ok
  | cons entry rest ihRest =>
      obtain ⟨key, item⟩ := entry
      obtain ⟨op, free, compiled, computes⟩ :=
        ih (key, item) List.mem_cons_self bound used covers below
      have grows := computes.grows
      obtain ⟨ops, next, compiledRest, computesRest⟩ :=
        ihRest (fun other member => ih other (List.mem_cons_of_mem _ member)) free
          (below.weaken grows)
      have growsRest := computesRest.grows
      have compiledItem : compile references bound item used = .ok (op, free) := compiled
      refine ⟨(key, op) :: ops, next,
        by simp [compileEntries, compiledItem, compiledRest], by omega, ?_, ?_⟩
      · intro slot member
        simp only [mentionsEntries, List.mem_append] at member
        rcases member with member | member
        · have := computes.inRange slot member
          omega
        · exact computesRest.inRange slot member
      · intro environment context frame bindings room holds
        simp only [evalEntries, Typed.interpretEntries]
        refine Yields.bind
          (computes.yields environment context frame bindings (by omega) holds) ?_
        intro value middle keeps
        refine Yields.bind ?_ fun values after _ => Yields.ok
        exact computesRest.yieldsAfter below grows keeps room holds environment context

theorem compilesTo_call {function : String} {params : List Ty} {args : List Typed}
    (ih : ∀ arg ∈ args, CompilesTo references scope arg) :
    CompilesTo references scope (.call function params args) := by
  intro bound used covers below
  obtain ⟨ops, next, compiled, computes⟩ := compileList_computes ih bound used covers below
  refine ⟨.call function ops, next, by simp [compile, compiled], computes.grows,
    computes.inRange, ?_⟩
  intro environment context frame bindings room holds
  simp only [eval, Typed.interpret]
  cases environment.find? function with
  | none => exact rfl
  | some implementation =>
      refine Yields.bind (computes.yields environment context frame bindings room holds) ?_
      exact fun values after _ => Yields.pure

theorem compilesTo_list {items : List Typed}
    (ih : ∀ item ∈ items, CompilesTo references scope item) :
    CompilesTo references scope (.list items) := by
  intro bound used covers below
  obtain ⟨ops, next, compiled, computes⟩ := compileList_computes ih bound used covers below
  refine ⟨.list ops, next, by simp [compile, compiled], computes.grows, computes.inRange, ?_⟩
  intro environment context frame bindings room holds
  simp only [eval, Typed.interpret]
  refine Yields.bind (computes.yields environment context frame bindings room holds) ?_
  exact fun values after _ => Yields.ok

theorem compilesTo_map {entries : List (String × Typed)}
    (ih : ∀ entry ∈ entries, CompilesTo references scope entry.2) :
    CompilesTo references scope (.map entries) := by
  intro bound used covers below
  obtain ⟨ops, next, compiled, computes⟩ := compileEntries_computes ih bound used covers below
  refine ⟨.map ops, next, by simp [compile, compiled], computes.grows, computes.inRange, ?_⟩
  intro environment context frame bindings room holds
  simp only [eval, Typed.interpret]
  refine Yields.bind (computes.yields environment context frame bindings room holds) ?_
  exact fun values after _ => Yields.ok

/-- Every well-typed part compiles to operations that compute what the interpreter gives. -/
theorem wellTyped_compilesTo {typing : Typing} {typed : Typed}
    (wellTyped : typing.WellTyped references scope typed) :
    CompilesTo references scope typed := by
  induction wellTyped with
  | symbol found => exact compilesTo_symbol found
  | constant => exact compilesTo_constant
  | get _ _ _ _ _ ih => exact compilesTo_get ih
  | each _ _ _ _ _ ihCollection ihBody => exact compilesTo_each ihCollection ihBody
  | ifElse _ _ _ ihTest ihYes ihNo => exact compilesTo_ifElse ihTest ihYes ihNo
  | ifSome _ _ _ _ _ ihValue ihYes ihNo => exact compilesTo_ifSome ihValue ihYes ihNo
  | call _ _ _ _ _ ih => exact compilesTo_call ih
  | list _ ih => exact compilesTo_list ih
  | map _ ih => exact compilesTo_map ih

end Op

end GraphQuery
