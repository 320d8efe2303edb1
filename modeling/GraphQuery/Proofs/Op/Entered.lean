import GraphQuery.Proofs.Op.Program

/-!
What is evaluated while an operation is: which of its parts, and in which frame each of them.
-/

namespace GraphQuery.Op

variable (environment : Environment) (context : Value)

/--
While an operation is evaluated in a frame, the part at a position is evaluated in a frame. A part
is entered when all that is evaluated before it has a value: items that the body of an `each` ran
for, a test, what an `if_some` binds, arguments that stand before it. An attribute's object is
entered also where it is followed as a path, which comes to the same (`eval_get`).
-/
inductive Enters : Op → Frame → Nat → Op → Frame → Prop
  | object {object name frame} : Enters (.get object name) frame 0 object frame
  | collection {index collection body frame} :
      Enters (.each index collection body) frame 0 collection frame
  | body {index collection body frame before item rest middle values after} :
      collection.eval environment context frame = .ok (.list (before ++ item :: rest), middle) →
      forEach (body.eval environment context) index before middle = .ok (values, after) →
      Enters (.each index collection body) frame 1 body (after.set index item)
  | test {test yes no frame} : Enters (.ifElse test yes no) frame 0 test frame
  | yes {test yes no frame value after} :
      test.eval environment context frame = .ok (value, after) → value.isTruthy = true →
      Enters (.ifElse test yes no) frame 1 yes after
  | no {test yes no frame value after} :
      test.eval environment context frame = .ok (value, after) → value.isTruthy = false →
      Enters (.ifElse test yes no) frame 2 no after
  | bound {index bound yes no frame} : Enters (.ifSome index bound yes no) frame 0 bound frame
  | present {index bound yes no frame value after} :
      bound.eval environment context frame = .ok (value, after) → value ≠ .null →
      Enters (.ifSome index bound yes no) frame 1 yes (after.set index value)
  | absent {index bound yes no frame after} :
      bound.eval environment context frame = .ok (.null, after) →
      Enters (.ifSome index bound yes no) frame 2 no after
  | arg {name function before arg rest frame values after} :
      environment.find? name = some function →
      evalList environment context before frame = .ok (values, after) →
      Enters (.call name (before ++ arg :: rest)) frame before.length arg after
  | item {before item rest frame values after} :
      evalList environment context before frame = .ok (values, after) →
      Enters (.list (before ++ item :: rest)) frame before.length item after
  | entry {before key value rest frame values after} :
      evalEntries environment context before frame = .ok (values, after) →
      Enters (.map (before ++ (key, value) :: rest)) frame before.length value after

inductive Reaches : Op → Frame → List Nat → Op → Frame → Prop
  | refl {op frame} : Reaches op frame [] op frame
  | step {op frame position part between path inner final} :
      Enters environment context op frame position part between →
      Reaches part between path inner final → Reaches op frame (position :: path) inner final

variable {environment : Environment} {context : Value} {op part : Op} {frame after final : Frame}
  {position : Nat} {path : List Nat} {error : EvalError}

/-! An entered part is evaluated: if it fails, so does the whole -/

theorem forEach_fails {body : Frame → Except EvalError (Value × Frame)} {index : Nat}
    {before rest : List Value} {item : Value} {values : List Value}
    (done : forEach body index before frame = .ok (values, after))
    (failed : body (after.set index item) = .error error) :
    forEach body index (before ++ item :: rest) frame = .error error := by
  induction before generalizing frame values with
  | nil =>
      cases done
      simp [forEach, failed]
  | cons first others ih =>
      obtain ⟨⟨value, middle⟩, ran, done⟩ := bind_eq_ok_iff.mp done
      obtain ⟨⟨others, last⟩, ranOthers, made⟩ := bind_eq_ok_iff.mp done
      cases made
      simp [forEach, ran, ih ranOthers]

theorem evalList_fails {before rest : List Op} {values : List Value}
    (done : evalList environment context before frame = .ok (values, after))
    (failed : part.eval environment context after = .error error) :
    evalList environment context (before ++ part :: rest) frame = .error error := by
  induction before generalizing frame values with
  | nil =>
      simp only [evalList, Except.ok.injEq, Prod.mk.injEq] at done
      simp [evalList, done.2, failed]
  | cons first others ih =>
      simp only [evalList] at done
      obtain ⟨⟨value, middle⟩, ran, done⟩ := bind_eq_ok_iff.mp done
      obtain ⟨⟨others, last⟩, ranOthers, made⟩ := bind_eq_ok_iff.mp done
      cases made
      simp [evalList, ran, ih ranOthers]

theorem evalEntries_fails {before rest : List (String × Op)} {key : String}
    {values : List (String × Value)}
    (done : evalEntries environment context before frame = .ok (values, after))
    (failed : part.eval environment context after = .error error) :
    evalEntries environment context (before ++ (key, part) :: rest) frame = .error error := by
  induction before generalizing frame values with
  | nil =>
      simp only [evalEntries, Except.ok.injEq, Prod.mk.injEq] at done
      simp [evalEntries, done.2, failed]
  | cons first others ih =>
      obtain ⟨name, first⟩ := first
      simp only [evalEntries] at done
      obtain ⟨⟨value, middle⟩, ran, done⟩ := bind_eq_ok_iff.mp done
      obtain ⟨⟨others, last⟩, ranOthers, made⟩ := bind_eq_ok_iff.mp done
      cases made
      simp [evalEntries, ran, ih ranOthers]

theorem Enters.fails (enters : Enters environment context op frame position part after)
    (failed : part.eval environment context after = .error error) :
    op.eval environment context frame = .error error := by
  cases enters with
  | object => simp [eval_get, failed]
  | collection | test | bound => simp [eval, failed]
  | body found ran => simp [eval, found, forEach_fails ran failed]
  | yes found truthy | no found truthy => simp [eval, found, truthy, failed]
  | @present _ _ _ _ _ value _ found notNull =>
      rw [eval, found, ok_bind]
      cases value with
      | null => exact (notNull rfl).elim
      | _ => exact failed
  | absent found => simp [eval, found, failed]
  | arg known ran => simp [eval, known, evalList_fails ran failed]
  | item ran => simp [eval, evalList_fails ran failed]
  | entry ran => simp [eval, evalEntries_fails ran failed]

theorem Reaches.fails (reaches : Reaches environment context op frame path part final)
    (failed : part.eval environment context final = .error error) :
    op.eval environment context frame = .error error := by
  induction reaches with
  | refl => exact failed
  | step enters _ ih => exact enters.fails (ih failed)

end GraphQuery.Op
