import GraphQuery.Proofs.Paired
import GraphQuery.Proofs.Query.Level

/-!
Queries that are alike on every level but for the order of their selections and fragments, and for
what a relation between heads leaves open.
-/

namespace GraphQuery

inductive Selection.Like (same : Head → Head → Prop) (below : Query → Query → Prop) :
    Selection → Selection → Prop
  | field {head other : Head} : same head other → Like same below (.field head) (.field other)
  | link {head other : Head} {query queryToo : Query} : same head other → below query queryToo →
      Like same below (.link head query) (.link other queryToo)

inductive Fragment.Like (below : Query → Query → Prop) : Fragment → Fragment → Prop
  | mk {typeName? : Option String} {query other : Query} : below query other →
      Like below (.mk typeName? query) (.mk typeName? other)

inductive Query.Like (same : Head → Head → Prop) : Query → Query → Prop
  | mk {selections others : List Selection} {fragments fragmentsToo : List Fragment}
      {ordered : Bool} : Paired (Selection.Like same (Query.Like same)) selections others →
      Paired (Fragment.Like (Query.Like same)) fragments fragmentsToo →
      Like same (.mk selections fragments ordered) (.mk others fragmentsToo ordered)

abbrev Query.Reordered : Query → Query → Prop :=
  Query.Like Eq

def Directive.Covered (directives others : List Directive) : Prop :=
  ∀ directive ∈ directives, ∃ other ∈ others, (directive == other) = true

/-- Heads that come to the same: an alias may be spelled out in one of them only, and directives may
be repeated or in another order. -/
structure Head.Alike (head other : Head) : Prop where
  resultKey : head.resultKey = other.resultKey
  name : head.name = other.name
  options : sameOptions head.options? other.options? = true
  covered : Directive.Covered head.directives other.directives
  covers : Directive.Covered other.directives head.directives

abbrev Query.Alike : Query → Query → Prop :=
  Query.Like Head.Alike

namespace Selection.Like

variable {same : Head → Head → Prop} {below : Query → Query → Prop} {selection other : Selection}

theorem head (alike : Selection.Like same below selection other) :
    same selection.head other.head := by
  cases alike <;> assumption

theorem isLink_eq (alike : Selection.Like same below selection other) :
    selection.isLink = other.isLink := by
  cases alike <;> rfl

end Selection.Like

namespace Query.Like

variable {same sameToo : Head → Head → Prop} {query other : Query}

theorem selections (alike : Query.Like same query other) :
    Paired (Selection.Like same (Query.Like same)) query.selections other.selections := by
  cases alike
  assumption

theorem fragments (alike : Query.Like same query other) :
    Paired (Fragment.Like (Query.Like same)) query.fragments other.fragments := by
  cases alike
  assumption

theorem ordered_eq (alike : Query.Like same query other) : query.ordered = other.ordered := by
  cases alike
  rfl

theorem isEmpty_eq (alike : Query.Like same query other) : query.isEmpty = other.isEmpty := by
  cases alike with
  | mk selections fragments =>
      rw [Bool.eq_iff_iff]
      simp only [isEmpty, Query.selections, Query.fragments, Bool.and_eq_true, List.isEmpty_iff,
        selections.eq_nil_iff, fragments.eq_nil_iff]

theorem symm (back : ∀ head other, same head other → sameToo other head)
    (alike : Query.Like same query other) : Query.Like sameToo other query := by
  induction query using Query.induct generalizing other with
  | step query ofLink ofFragment =>
      cases alike with
      | mk selections fragments =>
          refine .mk (selections.members.symm.imp ?_) (fragments.members.symm.imp ?_)
          · rintro _ _ ⟨member, _, pair⟩
            cases pair with
            | field head => exact .field (back _ _ head)
            | link head inner =>
                exact .link (back _ _ head) (ofLink _ _ member inner)
          · rintro _ _ ⟨member, _, pair⟩
            cases pair with
            | mk inner => exact .mk (ofFragment _ member inner)

/-- The relation between heads need only be weakened for heads that pass a check. -/
theorem imp {check : Head → Bool} (weaker : ∀ head other, check head = true → same head other →
    sameToo head other) (passes : query.every check = true) (alike : Query.Like same query other) :
    Query.Like sameToo query other := by
  induction query using Query.induct generalizing other with
  | step query ofLink ofFragment =>
      cases alike with
      | mk selections fragments =>
          rw [every_mk_iff] at passes
          refine .mk (selections.members.imp ?_) (fragments.members.imp ?_)
          · rintro _ _ ⟨member, _, pair⟩
            have passesHere := passes.1 _ member
            cases pair with
            | field head => exact .field (weaker _ _ passesHere head)
            | link head inner =>
                rw [Selection.every_link_iff] at passesHere
                exact .link (weaker _ _ passesHere.1 head) (ofLink _ _ member passesHere.2 inner)
          · rintro _ _ ⟨member, _, pair⟩
            have passesHere := passes.2 _ member
            cases pair with
            | mk inner => exact .mk (ofFragment _ member passesHere inner)

theorem every {check : Head → Bool} (onward : ∀ head other, same head other → check head = true →
    check other = true) (alike : Query.Like same query other) (passes : query.every check = true) :
    other.every check = true := by
  induction query using Query.induct generalizing other with
  | step query ofLink ofFragment =>
      cases alike with
      | mk selections fragments =>
          rw [every_mk_iff] at passes ⊢
          constructor
          · intro selection member
            obtain ⟨origin, given, pair⟩ := selections.exists_left member
            have passesHere := passes.1 _ given
            cases pair with
            | field head => exact onward _ _ head passesHere
            | link head inner =>
                rw [Selection.every_link_iff] at passesHere ⊢
                exact ⟨onward _ _ head passesHere.1, ofLink _ _ given inner passesHere.2⟩
          · intro fragment member
            obtain ⟨origin, given, pair⟩ := fragments.exists_left member
            have passesHere := passes.2 _ given
            cases pair with
            | mk inner => exact ofFragment _ given inner passesHere

end Query.Like

/-! Heads whose options and directives can be compared -/

def Head.isComparable (head : Head) : Bool :=
  head.isKeyed && head.isNaNFree

def Query.isComparable (query : Query) : Bool :=
  query.every Head.isComparable

theorem Query.every_and {check checkToo : Head → Bool} {query : Query}
    (passes : query.every check = true) (passesToo : query.every checkToo = true) :
    query.every (fun head => check head && checkToo head) = true := by
  induction query using Query.induct with
  | step query ofLink ofFragment =>
      obtain ⟨selections, fragments, ordered⟩ := query
      rw [every_mk_iff] at passes passesToo ⊢
      refine ⟨fun selection member => ?_, fun fragment member => ?_⟩
      · have here := passes.1 selection member
        have hereToo := passesToo.1 selection member
        cases selection with
        | field head => exact (Bool.and_eq_true _ _).mpr ⟨here, hereToo⟩
        | link head inner =>
            rw [Selection.every_link_iff] at here hereToo ⊢
            exact ⟨(Bool.and_eq_true _ _).mpr ⟨here.1, hereToo.1⟩,
              ofLink _ _ member here.2 hereToo.2⟩
      · exact ofFragment _ member (passes.2 fragment member) (passesToo.2 fragment member)

namespace Head

variable {head other : Head}

theorem keyed_of_comparable (comparable : head.isComparable = true) : head.isKeyed = true :=
  ((Bool.and_eq_true _ _).mp comparable).1

theorem agrees_self (comparable : head.isComparable = true) : head.agrees head = true := by
  rw [isComparable, Bool.and_eq_true] at comparable
  exact agrees_refl comparable.1 comparable.2

theorem isKeyed_of_directive (keyed : head.isKeyed = true) {directive : Directive}
    (member : directive ∈ head.directives) : (Value.object directive.arguments).isKeyed = true :=
  List.all_eq_true.mp keyed _ (List.mem_append_right _ (List.mem_map.mpr ⟨_, member, rfl⟩))

theorem directive_beq_self (comparable : head.isComparable = true) {directive : Directive}
    (member : directive ∈ head.directives) : (directive == directive) = true := by
  rw [isComparable, Bool.and_eq_true] at comparable
  have inside : Value.object directive.arguments ∈ head.values :=
    List.mem_append_right _ (List.mem_map.mpr ⟨_, member, rfl⟩)
  exact Directive.beq_refl (List.all_eq_true.mp comparable.1 _ inside)
    (List.all_eq_true.mp comparable.2 _ inside)

theorem Alike.refl (comparable : head.isComparable = true) : head.Alike head where
  resultKey := rfl
  name := rfl
  options := (agrees_iff.mp (agrees_self comparable)).2
  covered directive member := ⟨directive, member, directive_beq_self comparable member⟩
  covers directive member := ⟨directive, member, directive_beq_self comparable member⟩

theorem Alike.agrees (alike : head.Alike other) : head.agrees other = true :=
  agrees_iff.mpr ⟨alike.name, alike.options⟩

end Head

theorem Query.Reordered.alike {query other : Query} (reordered : Query.Reordered query other)
    (comparable : query.isComparable = true) : Query.Alike query other := by
  refine Query.Like.imp ?_ comparable reordered
  rintro head _ passes rfl
  exact Head.Alike.refl passes

/-! The directives that are joined to a head -/

section Directives

variable {directives others : List Directive} {directive : Directive}

theorem mem_unionDirectives_left (member : directive ∈ directives) :
    directive ∈ unionDirectives directives others := by
  induction others generalizing directives with
  | nil => exact member
  | cons other rest ih =>
      rw [unionDirectives, List.foldl_cons]
      split
      · exact ih member
      · exact ih (List.mem_append_left _ member)

theorem of_mem_unionDirectives (member : directive ∈ unionDirectives directives others) :
    directive ∈ directives ∨ directive ∈ others := by
  induction others generalizing directives with
  | nil => exact .inl member
  | cons other rest ih =>
      rw [unionDirectives, List.foldl_cons] at member
      have onward := ih member
      split at onward
      · exact onward.imp_right (List.mem_cons_of_mem _)
      · rw [List.mem_append, List.mem_singleton, or_assoc] at onward
        exact onward.imp_right List.mem_cons.mpr

theorem exists_mem_unionDirectives (directives : List Directive) (member : directive ∈ others)
    (equal : (directive == directive) = true) :
    ∃ found ∈ unionDirectives directives others, (found == directive) = true := by
  induction others generalizing directives with
  | nil => cases member
  | cons other rest ih =>
      rw [unionDirectives, List.foldl_cons]
      rcases List.mem_cons.mp member with rfl | member
      · split
        · rename_i known
          obtain ⟨found, inside, same⟩ := List.any_eq_true.mp known
          exact ⟨found, mem_unionDirectives_left inside, same⟩
        · exact ⟨directive, mem_unionDirectives_left (by simp), equal⟩
      · exact ih _ member

end Directives

namespace Head

variable {head : Head} {selections : List Selection} {directive : Directive}

theorem mem_directives_joinedTo (head : Head) (selections : List Selection)
    (member : directive ∈ head.directives) :
    directive ∈ (head.joinedTo selections).directives := by
  induction selections generalizing head with
  | nil => exact member
  | cons selection rest ih => exact ih _ (mem_unionDirectives_left member)

theorem of_mem_directives_joinedTo (member : directive ∈ (head.joinedTo selections).directives) :
    directive ∈ head.directives ∨
      ∃ selection ∈ selections, directive ∈ selection.head.directives := by
  induction selections generalizing head with
  | nil => exact .inl member
  | cons selection rest ih =>
      rcases ih member with joined | ⟨found, inside, given⟩
      · refine (of_mem_unionDirectives joined).imp_right fun given => ?_
        exact ⟨selection, List.mem_cons_self, given⟩
      · exact .inr ⟨found, List.mem_cons_of_mem _ inside, given⟩

theorem exists_mem_directives_joinedTo (head : Head) {selection : Selection}
    (member : selection ∈ selections)
    (given : directive ∈ selection.head.directives) (equal : (directive == directive) = true) :
    ∃ found ∈ (head.joinedTo selections).directives, (found == directive) = true := by
  induction selections generalizing head with
  | nil => cases member
  | cons first rest ih =>
      rcases List.mem_cons.mp member with rfl | member
      · obtain ⟨found, inside, same⟩ :=
          exists_mem_unionDirectives head.directives given equal
        exact ⟨found, mem_directives_joinedTo (head.addDirectives _) rest inside, same⟩
      · exact ih _ member

end Head

/-! Selections that are joined under one key -/

section Joined

variable {first firstToo : Selection} {rest restToo : List Selection} {directive : Directive}

theorem exists_of_joined (joined : directive ∈ (first.head.joinedTo rest).directives) :
    ∃ selection ∈ first :: rest, directive ∈ selection.head.directives := by
  rcases Head.of_mem_directives_joinedTo joined with given | ⟨selection, inside, given⟩
  · exact ⟨first, List.mem_cons_self, given⟩
  · exact ⟨selection, List.mem_cons_of_mem _ inside, given⟩

theorem Head.mem_values_joinedTo {first : Selection} {rest : List Selection} {value : Value}
    (member : value ∈ (first.head.joinedTo rest).values) :
    ∃ selection ∈ first :: rest, value ∈ selection.head.values := by
  rw [values, List.mem_append, options?_joinedTo] at member
  rcases member with option | argument
  · exact ⟨first, List.mem_cons_self, List.mem_append_left _ option⟩
  · obtain ⟨directive, joined, rfl⟩ := List.mem_map.mp argument
    obtain ⟨selection, inside, given⟩ := exists_of_joined joined
    exact ⟨selection, inside, List.mem_append_right _ (List.mem_map.mpr ⟨directive, given, rfl⟩)⟩

theorem covered_joinedTo
    (comparable : ∀ selection ∈ first :: rest, selection.head.isComparable = true)
    {selection : Selection} (member : selection ∈ first :: rest) :
    Directive.Covered selection.head.directives (first.head.joinedTo rest).directives := by
  intro directive given
  have itself := Head.directive_beq_self (comparable selection member) given
  rcases List.mem_cons.mp member with rfl | inside
  · exact ⟨directive, Head.mem_directives_joinedTo _ rest given, itself⟩
  · obtain ⟨found, joined, same⟩ :=
      Head.exists_mem_directives_joinedTo first.head inside given itself
    obtain ⟨origin, memberToo, givenToo⟩ := exists_of_joined joined
    have keyed := Head.keyed_of_comparable (comparable selection member)
    have keyedToo := Head.keyed_of_comparable (comparable origin memberToo)
    exact ⟨found, joined, Directive.beq_symm (Head.isKeyed_of_directive keyedToo givenToo)
      (Head.isKeyed_of_directive keyed given) same⟩

theorem covered_of_joined
    (comparableToo : ∀ selection ∈ firstToo :: restToo, selection.head.isComparable = true)
    (each : ∀ selection ∈ first :: rest, ∃ other ∈ firstToo :: restToo,
      Directive.Covered selection.head.directives other.head.directives) :
    Directive.Covered (first.head.joinedTo rest).directives
      (firstToo.head.joinedTo restToo).directives := by
  intro directive joined
  obtain ⟨selection, member, given⟩ := exists_of_joined joined
  obtain ⟨other, memberToo, covered⟩ := each selection member
  obtain ⟨equal, givenToo, same⟩ := covered directive given
  obtain ⟨found, joinedToo, onward⟩ := covered_joinedTo comparableToo memberToo equal givenToo
  exact ⟨found, joinedToo, Directive.beq_trans same onward⟩

/-- The heads of selections under one key, when these are alike but for their order. -/
theorem Head.alike_joinedTo {below : Query → Query → Prop}
    (paired : Paired (Selection.Like Head.Alike below) (first :: rest) (firstToo :: restToo))
    (comparable : ∀ selection ∈ first :: rest, selection.head.isComparable = true)
    (comparableToo : ∀ selection ∈ firstToo :: restToo, selection.head.isComparable = true)
    (key : first.resultKey = firstToo.resultKey) (agrees : first.agrees firstToo = true) :
    (first.head.joinedTo rest).Alike (firstToo.head.joinedTo restToo) := by
  have same := Head.agrees_iff.mp (Selection.agrees_iff.mp agrees).2
  refine ⟨?_, ?_, ?_, covered_of_joined comparableToo ?_, covered_of_joined comparable ?_⟩
  · rw [Head.resultKey_joinedTo, Head.resultKey_joinedTo]
    exact key
  · simpa using same.1
  · simpa using same.2
  · intro selection member
    obtain ⟨other, inside, alike⟩ := paired.exists_right member
    exact ⟨other, inside, alike.head.covered⟩
  · intro other member
    obtain ⟨selection, inside, alike⟩ := paired.exists_left member
    exact ⟨selection, inside, alike.head.covers⟩

end Joined

end GraphQuery
