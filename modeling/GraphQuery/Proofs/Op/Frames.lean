import GraphQuery.Proofs.Op.Program

/-!
What the evaluation of compiled parts leaves of a frame: the slots that were taken before a part
keep their values, also through the rounds of an `each` and through parts that stand side by side.
-/

namespace GraphQuery.Op

variable {typing : Typing} {references : References} {environment : Environment}
  {context : Value} {scope : Scope} {bound : Slots} {typed : Typed} {op part : Op}
  {used free next : Nat} {frame after : Frame}

theorem exists_holds (bound : Slots) (frame : Frame) : ∃ bindings, Holds bound frame bindings :=
  ⟨bound.map fun (entry : String × Nat) => (entry.1, frame.read entry.2),
    lookup_map_snd frame.read bound⟩

theorem Computes.keeps {α : Type} {mentioned : List Nat}
    {run : Environment → Value → Frame → Except EvalError (α × Frame)}
    {result : Environment → Value → Bindings → Except EvalError α} {value : α}
    (computes : Computes bound used next mentioned run result) (room : next ≤ frame.length)
    (done : run environment context frame = .ok (value, after)) : frame.Keeps used after := by
  obtain ⟨bindings, holds⟩ := exists_holds bound frame
  have yields := computes.yields environment context frame bindings room holds
  rw [done] at yields
  cases given : result environment context bindings with
  | error error =>
      rw [given] at yields
      exact nomatch yields
  | ok value =>
      rw [given] at yields
      obtain ⟨_, same, keeps⟩ := yields
      cases same
      exact keeps

theorem computes_of_compile (wellTyped : typing.WellTyped references scope typed)
    (covers : Covers references scope bound) (below : bound.Below used)
    (compiled : compile references bound typed used = .ok (op, next)) :
    Computes bound used next op.mentions (fun environment context => op.eval environment context)
      (fun environment context => typed.interpret environment context) := by
  obtain ⟨_, _, compiledToo, computes⟩ := wellTyped_compilesTo wellTyped bound used covers below
  cases compiled.symm.trans compiledToo
  exact computes

theorem forEach_keeps {body : Op} {items values : List Value}
    (each : ∀ frame value after, next ≤ frame.length →
      body.eval environment context frame = .ok (value, after) → frame.Keeps (free + 1) after)
    (room : next ≤ frame.length)
    (done : forEach (body.eval environment context) free items frame = .ok (values, after)) :
    frame.Keeps free after := by
  induction items generalizing frame values with
  | nil =>
      cases done
      exact .refl free _
  | cons item rest ih =>
      obtain ⟨⟨value, middle⟩, ran, done⟩ := bind_eq_ok_iff.mp done
      obtain ⟨⟨others, last⟩, ranRest, made⟩ := bind_eq_ok_iff.mp done
      cases made
      have bound : frame.Keeps free (frame.set free item) := .set (Nat.le_refl free) item
      have keeps := each _ value middle (by rw [bound.length]; exact room) ran
      have before := bound.trans (keeps.weaken (Nat.le_succ free))
      exact before.trans (ih (by rw [before.length]; exact room) ranRest)

theorem computes_of_compileList {items : List Typed} {ops : List Op}
    (wellTyped : ∀ item ∈ items, typing.WellTyped references scope item)
    (covers : Covers references scope bound) (below : bound.Below used)
    (compiled : compileList references bound items used = .ok (ops, next)) :
    Computes bound used next (mentionsList ops)
      (fun environment context => evalList environment context ops)
      (fun environment context => Typed.interpretList environment context items) := by
  obtain ⟨_, _, compiledToo, computes⟩ := compileList_computes
    (fun item member => wellTyped_compilesTo (wellTyped item member)) bound used covers below
  cases compiled.symm.trans compiledToo
  exact computes

theorem compileList_cons_cases {items : List Typed} {ops : List Op}
    (wellTyped : ∀ item ∈ items, typing.WellTyped references scope item)
    (covers : Covers references scope bound) (below : bound.Below used)
    (compiled : compileList references bound items used = .ok (op :: ops, next)) :
    ∃ item others free, items = item :: others ∧
      compile references bound item used = .ok (op, free) ∧
      compileList references bound others free = .ok (ops, next) ∧ used ≤ free ∧ free ≤ next := by
  cases items with
  | nil => cases compiled
  | cons item others =>
      simp only [compileList] at compiled
      obtain ⟨⟨op, free⟩, compiledItem, compiled⟩ := bind_eq_ok_iff.mp compiled
      obtain ⟨⟨ops, last⟩, compiledOthers, made⟩ := bind_eq_ok_iff.mp compiled
      cases made
      obtain ⟨here, later⟩ := List.forall_mem_cons.mp wellTyped
      have grows := (computes_of_compile here covers below compiledItem).grows
      exact ⟨item, others, free, rfl, compiledItem, compiledOthers, grows,
        (computes_of_compileList later covers (below.weaken grows) compiledOthers).grows⟩

/-- One of several parts, with the slots that are taken before it. -/
theorem compileList_at {items : List Typed} {before rest : List Op}
    (wellTyped : ∀ item ∈ items, typing.WellTyped references scope item)
    (covers : Covers references scope bound) (below : bound.Below used)
    (compiled : compileList references bound items used = .ok (before ++ part :: rest, next)) :
    ∃ inner start free, items[before.length]? = some inner ∧ inner ∈ items ∧
      compile references bound inner start = .ok (part, free) ∧ used ≤ start ∧ free ≤ next ∧
      ∀ frame values after, next ≤ frame.length →
        evalList environment context before frame = .ok (values, after) →
        frame.Keeps used after := by
  induction before generalizing items used with
  | nil =>
      obtain ⟨item, others, free, rfl, compiledItem, _, _, within⟩ :=
        compileList_cons_cases wellTyped covers below compiled
      refine ⟨item, used, free, rfl, List.mem_cons_self, compiledItem, Nat.le_refl used, within, ?_⟩
      intro frame values after _ done
      simp only [evalList, Except.ok.injEq, Prod.mk.injEq] at done
      exact done.2 ▸ .refl used frame
  | cons first before ih =>
      obtain ⟨item, others, free, rfl, compiledItem, compiledOthers, grows, inside⟩ :=
        compileList_cons_cases wellTyped covers below compiled
      obtain ⟨here, later⟩ := List.forall_mem_cons.mp wellTyped
      obtain ⟨inner, start, final, found, member, compiledInner, after, within, keeps⟩ :=
        ih later (below.weaken grows) compiledOthers
      refine ⟨inner, start, final, found, List.mem_cons_of_mem item member, compiledInner,
        Nat.le_trans grows after, within, ?_⟩
      intro frame values last room done
      simp only [evalList] at done
      obtain ⟨⟨value, middle⟩, ran, done⟩ := bind_eq_ok_iff.mp done
      obtain ⟨⟨others, last⟩, ranOthers, made⟩ := bind_eq_ok_iff.mp done
      cases made
      have kept := (computes_of_compile here covers below compiledItem).keeps
        (Nat.le_trans inside room) ran
      have keepsRest := keeps middle _ _ (by rw [kept.length]; exact room) ranOthers
      exact kept.trans (keepsRest.weaken grows)

/-! Entries are compiled and evaluated as a list of their values -/

theorem compileList_of_entries {entries : List (String × Typed)} {ops : List (String × Op)}
    (compiled : compileEntries references bound entries used = .ok (ops, next)) :
    compileList references bound (entries.map Prod.snd) used = .ok (ops.map Prod.snd, next) := by
  induction entries generalizing used ops with
  | nil =>
      simp only [compileEntries] at compiled
      cases compiled
      rfl
  | cons entry rest ih =>
      obtain ⟨key, value⟩ := entry
      simp only [compileEntries] at compiled
      obtain ⟨⟨op, free⟩, compiledValue, compiled⟩ := bind_eq_ok_iff.mp compiled
      obtain ⟨⟨others, last⟩, compiledRest, made⟩ := bind_eq_ok_iff.mp compiled
      cases made
      simp [compileList, compiledValue, ih compiledRest]

theorem evalList_of_entries {entries : List (String × Op)} {values : List (String × Value)}
    (done : evalEntries environment context entries frame = .ok (values, after)) :
    evalList environment context (entries.map Prod.snd) frame =
      .ok (values.map Prod.snd, after) := by
  induction entries generalizing frame values with
  | nil =>
      simp only [evalEntries] at done
      cases done
      rfl
  | cons entry rest ih =>
      obtain ⟨key, op⟩ := entry
      simp only [evalEntries] at done
      obtain ⟨⟨value, middle⟩, ran, done⟩ := bind_eq_ok_iff.mp done
      obtain ⟨⟨others, last⟩, ranRest, made⟩ := bind_eq_ok_iff.mp done
      cases made
      simp [evalList, ran, ih ranRest]

end GraphQuery.Op
