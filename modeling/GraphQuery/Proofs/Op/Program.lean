import GraphQuery.Proofs.Op.Simulation

/-!
Programs as a whole: the slots of the object and of the options, and what a call gives.
-/

namespace GraphQuery

namespace Op

def KeepsLength {α : Type} (run : Frame → Except EvalError (α × Frame)) : Prop :=
  ∀ frame value after, run frame = .ok (value, after) → after.length = frame.length

def Leaves {α : Type} (frame : Frame) (outcome : Except EvalError (α × Frame)) : Prop :=
  ∀ value after, outcome = .ok (value, after) → after.length = frame.length

namespace Leaves

variable {α β γ : Type} {frame : Frame}

theorem done {value : α} : Leaves frame (.ok (value, frame)) := by
  rintro _ _ ⟨⟩
  rfl

theorem failed {error : EvalError} :
    Leaves frame (.error error : Except EvalError (α × Frame)) := by
  rintro _ _ ⟨⟩

theorem bind {first : Except EvalError (α × Frame)}
    {next : α × Frame → Except EvalError (β × Frame)}
    (leaves : Leaves frame first) (onward : ∀ value after, Leaves after (next (value, after))) :
    Leaves frame (first >>= next) := by
  intro value after done
  obtain ⟨⟨inner, middle⟩, firstDone, nextDone⟩ := bind_eq_ok_iff.mp done
  rw [onward inner middle value after nextDone, leaves inner middle firstDone]

theorem onward {first : Except EvalError γ} {next : γ → Except EvalError (β × Frame)}
    (leaves : ∀ value, Leaves frame (next value)) : Leaves frame (first >>= next) := by
  intro value after done
  obtain ⟨inner, _, nextDone⟩ := bind_eq_ok_iff.mp done
  exact leaves inner value after nextDone

theorem ofSet {index : Nat} {item : Value} {outcome : Except EvalError (α × Frame)}
    (leaves : Leaves (frame.set index item) outcome) : Leaves frame outcome := by
  intro value after done
  rw [leaves value after done, List.length_set]

end Leaves

theorem KeepsLength.forEach {body : Frame → Except EvalError (Value × Frame)}
    (keeps : KeepsLength body) (index : Nat) (items : List Value) :
    KeepsLength (Op.forEach body index items) := by
  induction items with
  | nil =>
      intro frame
      exact Leaves.done
  | cons item rest ih =>
      intro frame
      refine Leaves.bind (Leaves.ofSet (keeps _)) fun value after => ?_
      exact Leaves.bind (ih after) fun values last => Leaves.done

variable (environment : Environment) (context : Value)

mutual

theorem keepsLength_eval : ∀ op, KeepsLength (eval environment context op)
  | const _ => by
      intro frame
      simp only [eval]
      exact Leaves.done
  | slot _ => by
      intro frame
      simp only [eval]
      exact Leaves.done
  | .context _ => by
      intro frame
      simp only [eval]
      exact Leaves.onward fun value => Leaves.done
  | get object name => by
      intro frame
      rw [eval_get]
      refine Leaves.bind (keepsLength_eval object frame) fun value after => ?_
      exact Leaves.onward fun inner => Leaves.done
  | each index collection body => by
      intro frame
      simp only [eval]
      refine Leaves.bind (keepsLength_eval collection frame) fun value after => ?_
      cases value with
      | list items =>
          refine Leaves.bind ((keepsLength_eval body).forEach index items after) ?_
          exact fun values last => Leaves.done
      | _ => exact Leaves.failed
  | ifElse test yes no => by
      intro frame
      simp only [eval]
      refine Leaves.bind (keepsLength_eval test frame) fun value after => ?_
      simp only
      split
      · exact keepsLength_eval yes after
      · exact keepsLength_eval no after
  | ifSome index bound yes no => by
      intro frame
      simp only [eval]
      refine Leaves.bind (keepsLength_eval bound frame) fun value after => ?_
      cases value with
      | null => exact keepsLength_eval no after
      | _ => exact Leaves.ofSet (keepsLength_eval yes _)
  | call name args => by
      intro frame
      simp only [eval]
      split
      · exact Leaves.failed
      · refine Leaves.bind (keepsLength_evalList args frame) fun values after => ?_
        exact Leaves.onward fun value => Leaves.done
  | list items => by
      intro frame
      simp only [eval]
      exact Leaves.bind (keepsLength_evalList items frame) fun values after => Leaves.done
  | map entries => by
      intro frame
      simp only [eval]
      exact Leaves.bind (keepsLength_evalEntries entries frame) fun values after => Leaves.done

theorem keepsLength_evalList : ∀ ops, KeepsLength (evalList environment context ops)
  | [] => by
      intro frame
      simp only [evalList]
      exact Leaves.done
  | op :: rest => by
      intro frame
      simp only [evalList]
      refine Leaves.bind (keepsLength_eval op frame) fun value after => ?_
      exact Leaves.bind (keepsLength_evalList rest after) fun values last => Leaves.done

theorem keepsLength_evalEntries : ∀ entries, KeepsLength (evalEntries environment context entries)
  | [] => by
      intro frame
      simp only [evalEntries]
      exact Leaves.done
  | (key, op) :: rest => by
      intro frame
      simp only [evalEntries]
      refine Leaves.bind (keepsLength_eval op frame) fun value after => ?_
      exact Leaves.bind (keepsLength_evalEntries rest after) fun values last => Leaves.done

end

/-! Slots of arguments -/

theorem lookup_map_snd {α β : Type} (change : α → β) (entries : List (String × α))
    (name : String) :
    (entries.map fun entry => (entry.1, change entry.2)).lookup name =
      (entries.lookup name).map change := by
  induction entries with
  | nil => rfl
  | cons entry rest ih =>
      obtain ⟨key, value⟩ := entry
      cases same : name == key with
      | true => simp [List.lookup_cons, same]
      | false => simp only [List.map_cons, List.lookup_cons, same, ih]

theorem zip_eq_map_zipIdx (names : List String) (values rest : List Value)
    (same : names.length = values.length) :
    names.zip values =
      names.zipIdx.map fun entry => (entry.1, Frame.read (values ++ rest) entry.2) := by
  apply List.ext_getElem
  · simp [same]
  · intro index inside _
    have insideValues : index < values.length := by
      simp only [List.length_zip] at inside
      omega
    simp only [List.getElem_zip, List.getElem_map, List.getElem_zipIdx, Frame.read,
      List.getD_eq_getElem?_getD, Nat.zero_add, List.getElem?_append_left insideValues,
      List.getElem?_eq_getElem insideValues, Option.getD_some]

theorem holds_arguments {options : List String} {values : List Value}
    (same : values.length = options.length) (this : Value) (rest : List Value) :
    Holds (argumentSlots options) (this :: values ++ rest)
      (.ofArguments this options values) := by
  intro name
  have aligned := zip_eq_map_zipIdx (thisName :: options) (this :: values) rest (by simp [same])
  simp only [argumentSlots, Bindings.ofArguments, ← List.zip_cons_cons, aligned,
    ← List.map_reverse, ← lookup_map_snd]

theorem below_arguments (options : List String) :
    (argumentSlots options).Below (options.length + 1) := by
  intro name slot found
  obtain ⟨before, after, split, _⟩ := List.lookup_eq_some_iff.mp found
  have member : (name, slot) ∈ argumentSlots options := by simp [split]
  simp only [argumentSlots, List.mem_reverse] at member
  simpa using List.snd_lt_of_mem_zipIdx member

theorem covers_roots {roots : List (String × Ty)} {scope : Scope}
    {references : References} (binds : Typing.BindsRoots roots scope references)
    (bound : Slots) : Covers references scope bound := by
  intro name reference found _
  obtain ⟨ty, _, entry⟩ := binds.root name reference found
  exact ⟨_, entry, rfl⟩

end Op

structure Program.Runs (program : Program) (options : List String)
    (result : Environment → Value → Value → List Value → Except EvalError Value) : Prop where
  arity : program.options = options.length
  inRange : ∀ slot ∈ program.op.mentions, slot < program.slots
  frame : ∀ this values, values.length = options.length →
    (program.frame this values).length = program.slots
  call : ∀ environment this context values, values.length = options.length →
    program.call environment this context values = result environment this context values

/-- An accepted expression compiles to a program that runs as the interpreter does. -/
theorem Checked.compile_runs {typing : Typing} {roots : List (String × Ty)} {expr : Expr}
    {checked : Checked} (accepted : typing.check roots expr = .ok checked)
    (options : List String) :
    ∃ program, checked.compile options = .ok program ∧
      program.Runs options fun environment this context values =>
        checked.interpret environment this context options values := by
  obtain ⟨scope, binds, wellTyped⟩ := Typing.check_sound accepted
  obtain ⟨op, slots, compiled, computes⟩ :=
    Op.wellTyped_compilesTo wellTyped (Op.argumentSlots options) (options.length + 1)
      (Op.covers_roots binds _) (Op.below_arguments options)
  have grows := computes.grows
  refine ⟨⟨op, slots, options.length⟩, by simp [Checked.compile, compiled], rfl,
    computes.inRange, ?_, ?_⟩
  · intro this values same
    simp only [Program.frame, List.length_append, List.length_cons, List.length_replicate]
    omega
  · intro environment this context values same
    have holds := Op.holds_arguments same this
      (List.replicate (slots - (values.length + 1)) .null)
    have yields := computes.yields environment context _ _ (by simp; omega) holds
    simp only [Program.call, same, if_true, Program.frame, Checked.interpret]
    cases result : checked.root.interpret environment context
        (.ofArguments this options values) with
    | error error =>
        rw [result, same] at yields
        have failed : op.eval environment context _ = .error error := yields
        rw [failed]
        rfl
    | ok value =>
        rw [result, same] at yields
        obtain ⟨after, done, _⟩ := yields
        rw [done]
        rfl

/--
Compiler correctness: whatever the options are named, an accepted expression compiles, and every
call gives the value or the error of the interpreter. All slots that the program mentions are in its
frame, whose length no part changes; and following a path of attributes is evaluating it.
-/
theorem Checked.compile_correct {typing : Typing} {roots : List (String × Ty)} {expr : Expr}
    {checked : Checked} (accepted : typing.check roots expr = .ok checked)
    (options : List String) :
    ∃ program, checked.compile options = .ok program ∧
      (∀ environment this context values, values.length = options.length →
        program.call environment this context values =
          checked.interpret environment this context options values) ∧
      (∀ slot ∈ program.op.mentions, slot < program.slots) ∧
      (∀ this values, values.length = options.length →
        (program.frame this values).length = program.slots) ∧
      (∀ environment context part, Op.KeepsLength (Op.eval environment context part)) ∧
      (∀ environment context part frame found, Op.path? context frame part = some found →
        Op.eval environment context part frame = found.map fun value => (value, frame)) := by
  obtain ⟨program, compiled, runs⟩ := Checked.compile_runs accepted options
  refine ⟨program, compiled, runs.call, runs.inRange, runs.frame, Op.keepsLength_eval, ?_⟩
  intro environment context part frame found path
  exact Op.eval_of_path? environment path

def Expr.shadowing : Expr :=
  .each "x" (.get (.symbol "this") "items")
    (.list [.get (.symbol "x") "price",
      .each "x" (.get (.symbol "x") "parts") (.get (.symbol "x") "price")])

def Registry.orders : Registry :=
  ⟨[("Order", .record [("items", .sequence (.named .type "Item"))]),
    ("Item", .record [("price", .integer), ("parts", .sequence (.named .type "Item"))])]⟩

theorem Checked.compile_correct_shadowing : ∃ checked,
    Typing.check ⟨.orders, []⟩ [("this", .named .type "Order"), ("bonus", .integer)] .shadowing =
      .ok checked ∧
    ∃ program, checked.compile ["bonus"] = .ok program ∧
      program.call [] (.object [("items", .list [.object [("price", .integer 3),
        ("parts", .list [.object [("price", .integer 1), ("parts", .list [])]])]])]) .null
        [.integer 0] = .ok (.list [.list [.integer 3, .list [.integer 1]]]) := by
  refine ⟨_, rfl, ?_⟩
  have accepted : Typing.check ⟨.orders, []⟩
    [("this", .named .type "Order"), ("bonus", .integer)] .shadowing = .ok _ := rfl
  obtain ⟨program, compiled, calls, _⟩ := Checked.compile_correct accepted ["bonus"]
  exact ⟨program, compiled, (calls _ _ _ _ rfl).trans rfl⟩

end GraphQuery
