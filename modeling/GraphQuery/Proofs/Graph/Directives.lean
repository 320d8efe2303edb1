import GraphQuery.Proofs.Graph.Levels

/-!
The directives of merged selections. A merged selection has the directives of the first selection it
is made of as these stand, and after them every other directive of the further ones once. So each is
there once unless one is repeated in the first selection.
-/

namespace GraphQuery

def Directive.isKeyed (directive : Directive) : Bool :=
  (Value.object directive.arguments).isKeyed

section Directives

variable {directives others : List Directive}

theorem unionDirectives_append (directives others more : List Directive) :
    unionDirectives directives (others ++ more) =
      unionDirectives (unionDirectives directives others) more :=
  List.foldl_append

/-- Directives that are joined to others come after these, each once and in their own order. -/
theorem unionDirectives_eq (keyed : ∀ directive ∈ others, directive.isKeyed = true) :
    unionDirectives directives others = directives ++
      (others.filter fun directive => !directives.any (· == directive)).eraseDups := by
  induction others generalizing directives with
  | nil => exact (List.append_nil _).symm
  | cons directive rest ih =>
      obtain ⟨here, later⟩ := List.forall_mem_cons.mp keyed
      rw [unionDirectives, List.foldl_cons, List.filter_cons]
      cases known : directives.any (· == directive) with
      | true => exact ih later
      | false =>
          have onward := @ih (directives ++ [directive]) later
          rw [unionDirectives] at onward
          rw [if_neg Bool.false_ne_true, onward, Bool.not_false, if_pos rfl, List.eraseDups_cons,
            List.filter_filter, List.append_assoc, List.singleton_append]
          refine congrArg (fun rest => directives ++ directive :: List.eraseDups rest) ?_
          refine List.filter_congr fun other member => ?_
          have either : (directive == other) = (other == directive) := by
            rw [Bool.eq_iff_iff]
            exact ⟨Directive.beq_symm here (later other member),
              Directive.beq_symm (later other member) here⟩
          simp [either, Bool.and_comm]

theorem eraseDups_eq_union (keyed : ∀ directive ∈ others, directive.isKeyed = true) :
    others.eraseDups = unionDirectives [] others := by
  rw [unionDirectives_eq keyed]
  simp

/-- A directive is known among others exactly if it is among these without their repetitions. -/
theorem any_eraseDups (keyed : ∀ directive ∈ directives, directive.isKeyed = true)
    {directive : Directive} (keyedToo : directive.isKeyed = true) :
    directives.eraseDups.any (· == directive) = directives.any (· == directive) := by
  rw [Bool.eq_iff_iff, List.any_eq_true, List.any_eq_true, eraseDups_eq_union keyed]
  constructor
  · rintro ⟨found, member, same⟩
    exact ⟨found, (of_mem_unionDirectives member).resolve_left List.not_mem_nil, same⟩
  · rintro ⟨given, member, same⟩
    have itself := Directive.beq_trans same (Directive.beq_symm (keyed given member) keyedToo same)
    obtain ⟨found, inside, equal⟩ := exists_mem_unionDirectives [] member itself
    exact ⟨found, inside, Directive.beq_trans equal same⟩

/-- Joining keeps repetitions among the directives it starts from, and no others. -/
theorem unionDirectives_eq_eraseDups_iff
    (keyed : ∀ directive ∈ directives, directive.isKeyed = true)
    (keyedToo : ∀ directive ∈ others, directive.isKeyed = true) :
    unionDirectives directives others = (directives ++ others).eraseDups ↔
      directives.eraseDups = directives := by
  have all : ∀ directive ∈ directives ++ others, directive.isKeyed = true :=
    fun directive member => (List.mem_append.mp member).elim (keyed directive) (keyedToo directive)
  have fresh : (others.filter fun directive => !directives.eraseDups.any (· == directive)) =
      others.filter fun directive => !directives.any (· == directive) :=
    List.filter_congr fun directive member =>
      congrArg (! ·) (any_eraseDups keyed (keyedToo directive member))
  rw [eraseDups_eq_union all, unionDirectives_append, ← eraseDups_eq_union keyed,
    unionDirectives_eq keyedToo, unionDirectives_eq keyedToo, fresh, List.append_cancel_right_eq]
  exact eq_comm

end Directives

def Selection.directivesOf (selections : List Selection) : List Directive :=
  selections.flatMap fun selection => selection.head.directives

theorem Head.directives_joinedTo (head : Head) (selections : List Selection) :
    (head.joinedTo selections).directives =
      unionDirectives head.directives (Selection.directivesOf selections) := by
  induction selections generalizing head with
  | nil => rfl
  | cons selection rest ih =>
      rw [joinedTo, List.foldl_cons, ← joinedTo, ih]
      exact (unionDirectives_append ..).symm

/-- What becomes of the directives of selections that are merged into one: those of the first
selection stay as they are, and the others are added once each. They are all there once, in the
order in which they are first seen, exactly if the first selection repeats none. -/
structure Selection.DirectivesFrom (selections : List Selection) (directives : List Directive) :
    Prop where
  nonempty : selections ≠ []
  joined : ∀ first rest, selections = first :: rest → directives = first.head.directives ++
    ((directivesOf rest).filter fun directive =>
      !first.head.directives.any (· == directive)).eraseDups
  once_iff : directives = (directivesOf selections).eraseDups ↔
    ∀ first ∈ selections.head?, first.head.directives.eraseDups = first.head.directives

namespace Selection

theorem keyed_of_directivesOf {selections : List Selection}
    (keyed : ∀ selection ∈ selections, selection.head.isKeyed = true) :
    ∀ directive ∈ directivesOf selections, directive.isKeyed = true := by
  intro directive member
  obtain ⟨selection, given, inside⟩ := List.mem_flatMap.mp member
  exact Head.isKeyed_of_directive (keyed selection given) inside

theorem directivesFrom_joinedTo {first : Selection} {rest : List Selection}
    (keyed : ∀ selection ∈ first :: rest, selection.head.isKeyed = true) :
    DirectivesFrom (first :: rest) (first.head.joinedTo rest).directives := by
  obtain ⟨keyedFirst, keyedRest⟩ := List.forall_mem_cons.mp keyed
  have ofFirst : ∀ directive ∈ first.head.directives, directive.isKeyed = true :=
    fun directive member => Head.isKeyed_of_directive keyedFirst member
  have ofRest := keyed_of_directivesOf keyedRest
  rw [Head.directives_joinedTo]
  refine ⟨List.cons_ne_nil _ _, ?_, ?_⟩
  · rintro _ _ ⟨⟩
    exact unionDirectives_eq ofRest
  · refine (unionDirectives_eq_eraseDups_iff ofFirst ofRest).trans ⟨?_, fun each => each first rfl⟩
    rintro same _ ⟨⟩
    exact same

end Selection

namespace MergePolicy.Level

variable {κ : Type} {policy : MergePolicy κ MergeError} {place there : κ}
  {queries given : List Query} {merged level : Query}

theorem directivesFrom (here : policy.Level place queries merged there given level)
    (joins : policy.combine = Slot.join) (done : policy.merge place queries = .ok merged)
    (keyed : ∀ query ∈ queries, query.isKeyed = true) {selection : Selection}
    (member : selection ∈ level.selections) :
    Selection.DirectivesFrom
      (Selection.under selection.resultKey (policy.selectionsAt there given))
      selection.head.directives := by
  obtain ⟨first, rest, split, _, head⟩ := ((here.merges joins done).finishes member).split
  rw [split, head]
  refine Selection.directivesFrom_joinedTo fun contributing inside => ?_
  exact Selection.every_head (every_of_under (here.every_given keyed) (split ▸ inside))

end MergePolicy.Level

namespace Graph

/-- On every level of what was merged, the directives of a selection are those of the selections
that were gathered there under its key. -/
theorem level_directives_iff {queries : List Query}
    (keyed : ∀ query ∈ queries, query.isKeyed = true) :
    (∀ merged, Query.merge queries = .ok merged → ∀ there given level,
      (MergePolicy.plain Slot.join).Level () queries merged there given level →
      ∀ selection ∈ level.selections, Selection.DirectivesFrom
        (Selection.under selection.resultKey
          ((MergePolicy.plain Slot.join).selectionsAt there given)) selection.head.directives) ∧
    ∀ (graph : Graph) options place merged,
      graph.mergeAt options place queries = .ok merged → ∀ there given level,
      (graph.mergePolicy options).Level place queries merged there given level →
      ∀ selection ∈ level.selections, Selection.DirectivesFrom
        (Selection.under selection.resultKey
          ((graph.mergePolicy options).selectionsAt there given)) selection.head.directives := by
  constructor
  · intro merged done there given level here selection member
    exact here.directivesFrom rfl done keyed member
  · intro graph options place merged done there given level here selection member
    exact here.directivesFrom rfl done keyed member

/-- A link with a directive in one query, and twice with it and once with another in the next. -/
theorem level_directives_echoes :
    (∀ query ∈ Query.echoes, query.isKeyed = true) ∧
    ∃ merged, Query.merge Query.echoes = .ok merged ∧ ∃ selection ∈ merged.selections,
      Selection.DirectivesFrom (Selection.under selection.resultKey
        ((MergePolicy.plain Slot.join).selectionsAt () Query.echoes)) selection.head.directives ∧
      selection.head.directives = [⟨"cached", []⟩, ⟨"live", []⟩] := by
  have keyed : ∀ query ∈ Query.echoes, query.isKeyed = true := by decide
  refine ⟨keyed, _, rfl, _, List.mem_cons_self, ?_, rfl⟩
  exact (level_directives_iff keyed).1 _ rfl _ _ _ .top _ List.mem_cons_self

def repeated : List Query :=
  [.ofSelections [.field ⟨"title", none, none, [⟨"cached", []⟩, ⟨"cached", []⟩]⟩],
    .ofSelections [.field ⟨"title", none, none, [⟨"live", []⟩, ⟨"live", []⟩]⟩]]

/-- A directive that is repeated in the first selection is repeated in what it is merged into. -/
theorem level_directives_repeated : ∃ merged, Query.merge repeated = .ok merged ∧
    ∃ selection ∈ merged.selections,
      selection.head.directives = [⟨"cached", []⟩, ⟨"cached", []⟩, ⟨"live", []⟩] ∧
      (Selection.directivesOf (Selection.under selection.resultKey
        ((MergePolicy.plain Slot.join).selectionsAt () repeated))).eraseDups =
          [⟨"cached", []⟩, ⟨"live", []⟩] ∧
      selection.head.directives ≠ (Selection.directivesOf (Selection.under selection.resultKey
        ((MergePolicy.plain Slot.join).selectionsAt () repeated))).eraseDups := by
  have once : (Selection.directivesOf (Selection.under "title"
      ((MergePolicy.plain Slot.join).selectionsAt () repeated))).eraseDups =
        [⟨"cached", []⟩, ⟨"live", []⟩] := rfl
  refine ⟨_, rfl, _, List.mem_cons_self, rfl, once, fun same => ?_⟩
  have lengths := congrArg List.length (same.trans once)
  cases lengths

end Graph

end GraphQuery
