import GraphQuery.Proofs.Query.Heads
import Mathlib.Data.List.Induction

/-!
What selections come to when they are gathered under their keys. The first selection under a key
decides what the key means, and joining fails at the first selection that means something else.
-/

namespace GraphQuery

/-! Names in the order in which they were first seen -/

theorem eraseDups_append_of_known {names more : List String} (known : ∀ name ∈ more, name ∈ names) :
    (names ++ more).eraseDups = names.eraseDups := by
  have none : more.removeAll names = [] := by
    refine List.filter_eq_nil_iff.mpr fun name member => ?_
    simp [known name member]
  rw [List.eraseDups_append, none, List.eraseDups_nil, List.append_nil]

theorem eraseDups_of_nodup {names : List String} (nodup : names.Nodup) :
    names.eraseDups = names := by
  induction names with
  | nil => rfl
  | cons name rest ih =>
      obtain ⟨fresh, nodupRest⟩ := List.nodup_cons.mp nodup
      have apart : rest.filter (fun other => !other == name) = rest := by
        refine List.filter_eq_self.mpr fun other member => ?_
        have different : other ≠ name := fun same => fresh (same ▸ member)
        simp [different]
      rw [List.eraseDups_cons, apart, ih nodupRest]

theorem nodup_eraseDups (names : List String) : names.eraseDups.Nodup := by
  induction names using List.reverseRecOn with
  | nil => exact List.nodup_nil
  | append_singleton names name ih =>
      rw [List.eraseDups_append, List.removeAll, List.filter_singleton]
      by_cases known : name ∈ names
      · simpa [known] using ih
      · have fresh : ∀ other ∈ names.eraseDups, other ≠ name := by
          rintro other member rfl
          exact known (List.mem_eraseDups.mp member)
        simpa [known, List.eraseDups_cons, List.nodup_append, ih] using fresh

theorem Entries.keys_alter_of_seen {α : Type} {entries : Entries α} {seen : List String}
    (same : entries.keys = seen.eraseDups) (key : String) (first : α) (change : α → α) :
    (entries.alter key first change).keys = (seen ++ [key]).eraseDups := by
  rw [alter_eq_insert, keys_insert, same, List.eraseDups_append, List.removeAll,
    List.filter_singleton]
  by_cases known : key ∈ seen
  · simp [known]
  · simp [known, List.eraseDups_cons]

namespace Selection

def inner? : Selection → Option Query
  | field _ => none
  | link _ query => some query

def clash (selection other : Selection) : MergeError :=
  if selection.isLink = other.isLink then .distinctSelections other.resultKey
  else .fieldLinkCollision other.resultKey

def under (key : String) (selections : List Selection) : List Selection :=
  selections.filter fun selection => selection.resultKey == key

def Agreeing (selections : List Selection) : Prop :=
  ∀ key first rest, under key selections = first :: rest →
    ∀ other ∈ rest, first.agrees other = true

def Clashing (selections : List Selection) (error : MergeError) : Prop :=
  ∃ key first rest, under key selections = first :: rest ∧
    ∃ other ∈ rest, first.agrees other = false ∧ error = first.clash other

variable {selections : List Selection} {selection other : Selection} {key : String}

theorem mem_under_iff :
    selection ∈ under key selections ↔ selection ∈ selections ∧ selection.resultKey = key := by
  rw [under, List.mem_filter, beq_iff_eq]

theorem mem_filterMap_inner?_iff {query : Query} :
    query ∈ selections.filterMap inner? ↔ ∃ head, .link head query ∈ selections := by
  rw [List.mem_filterMap]
  constructor
  · rintro ⟨_ | ⟨head, inner⟩, member, same⟩
    · cases same
    · exact ⟨head, Option.some.inj same ▸ member⟩
  · rintro ⟨head, member⟩
    exact ⟨_, member, rfl⟩

theorem under_append (key : String) (selections others : List Selection) :
    under key (selections ++ others) = under key selections ++ under key others :=
  List.filter_append ..

theorem under_cons (key : String) (selection : Selection) (selections : List Selection) :
    under key (selection :: selections) =
      if selection.resultKey = key then selection :: under key selections
      else under key selections := by
  simp only [under, List.filter_cons, beq_iff_eq]

theorem under_single_self : under selection.resultKey [selection] = [selection] := by
  simp [under]

theorem under_single_of_ne (different : selection.resultKey ≠ key) :
    under key [selection] = [] := by
  simp [under, different]

theorem agreeing_nil : Agreeing [] := by
  intro key first rest split
  simp [under] at split

theorem agreeing_append_iff : Agreeing (selections ++ [selection]) ↔ Agreeing selections ∧
    ∀ first ∈ (under selection.resultKey selections).head?, first.agrees selection = true := by
  constructor
  · intro agreeing
    constructor
    · intro key first rest split other member
      refine agreeing key first (rest ++ under key [selection]) ?_ other
        (List.mem_append_left _ member)
      rw [under_append, split, List.cons_append]
    · intro first found
      obtain ⟨rest, split⟩ := List.head?_eq_some_iff.mp found
      refine agreeing selection.resultKey first (rest ++ [selection]) ?_ selection (by simp)
      rw [under_append, split, under_single_self, List.cons_append]
  · rintro ⟨agreeing, last⟩ key first rest split other member
    rw [under_append] at split
    by_cases same : selection.resultKey = key
    · subst same
      rw [under_single_self] at split
      generalize before : under selection.resultKey selections = earlier at split last
      cases earlier with
      | nil => simp_all
      | cons firstToo earlier =>
          simp only [List.cons_append, List.cons.injEq] at split
          obtain ⟨rfl, rfl⟩ := split
          rcases List.mem_append.mp member with member | single
          · exact agreeing _ _ _ before other member
          · exact List.mem_singleton.mp single ▸ last firstToo rfl
    · rw [under_single_of_ne same, List.append_nil] at split
      exact agreeing key first rest split other member

theorem Clashing.append {error : MergeError} (clashing : Clashing selections error) :
    Clashing (selections ++ [selection]) error := by
  obtain ⟨key, first, rest, split, other, member, differs, same⟩ := clashing
  refine ⟨key, first, rest ++ under key [selection], ?_, other, List.mem_append_left _ member,
    differs, same⟩
  rw [under_append, split, List.cons_append]

theorem Clashing.not_agreeing {error : MergeError} (clashing : Clashing selections error) :
    ¬ Agreeing selections := by
  intro agreeing
  obtain ⟨key, first, rest, split, other, member, differs, _⟩ := clashing
  simp [agreeing key first rest split other member] at differs

/-- Whichever two selections under one key are taken, they mean the same. -/
theorem Agreeing.pairwise (agreeing : Agreeing selections)
    (keyed : ∀ selection ∈ selections, selection.head.isKeyed = true) :
    selections.Pairwise fun selection other =>
      selection.resultKey = other.resultKey → selection.agrees other = true := by
  refine List.pairwise_iff_forall_sublist.mpr fun {selection other} pair same => ?_
  have under : [selection, other].Sublist (Selection.under other.resultKey selections) := by
    have filtered := pair.filter fun selection => selection.resultKey == other.resultKey
    simpa [Selection.under, same] using filtered
  -- both agree with the first selection under their key, unless one of them is the first
  cases split : Selection.under other.resultKey selections with
  | nil => simp [split] at under
  | cons first rest =>
      rw [split] at under
      have means := agreeing _ first rest split
      have known : ∀ selection ∈ first :: rest, selection.head.isKeyed = true :=
        fun selection member => keyed selection (mem_under_iff.mp (split ▸ member)).1
      cases under with
      | cons_cons _ single => exact means other (List.singleton_sublist.mp single)
      | cons _ both =>
          have here := both.subset List.mem_cons_self
          have there := both.subset (List.mem_cons_of_mem _ List.mem_cons_self)
          have back := agrees_symm (known _ List.mem_cons_self)
            (known _ (List.mem_cons_of_mem _ here)) (means _ here)
          exact agrees_trans back (means _ there)

/-- Agreement is kept when some selections are left out, the first one under a key perhaps. -/
theorem Agreeing.sublist (agreeing : Agreeing selections)
    (keyed : ∀ selection ∈ selections, selection.head.isKeyed = true) {fewer : List Selection}
    (sub : fewer.Sublist selections) : Agreeing fewer := by
  intro key first rest split other member
  have pair : [first, other].Sublist (under key fewer) :=
    split ▸ (List.singleton_sublist.mpr member).cons_cons first
  have same : ∀ selection ∈ first :: rest, selection.resultKey = key :=
    fun selection inside => (mem_under_iff.mp (split ▸ inside)).2
  refine List.pairwise_iff_forall_sublist.mp ((agreeing.pairwise keyed).sublist sub)
    (pair.trans List.filter_sublist) ?_
  rw [same first List.mem_cons_self, same other (List.mem_cons_of_mem _ member)]

theorem Agreeing.exists_link (agreeing : Agreeing selections) {head : Head} {query : Query}
    (member : .link head query ∈ under key selections) : ∃ first inner rest,
      under key selections = .link first inner :: rest ∧ first.name = head.name := by
  cases split : under key selections with
  | nil => simp [split] at member
  | cons first rest =>
      rw [split] at member
      rcases List.mem_cons.mp member with rfl | later
      · exact ⟨head, query, rest, rfl, rfl⟩
      · have means := agrees_iff.mp (agreeing key first rest split _ later)
        cases first with
        | field _ => cases means.1
        | link head inner => exact ⟨head, inner, rest, rfl, (Head.agrees_iff.mp means.2).1⟩

/-! Selections with a key of their own each -/

theorem under_of_nodup {selections : List Selection}
    (nodup : (selections.map Selection.resultKey).Nodup) {selection : Selection}
    (member : selection ∈ selections) : under selection.resultKey selections = [selection] := by
  obtain ⟨before, after, rfl⟩ := List.append_of_mem member
  rw [List.map_append, List.map_cons, List.nodup_append] at nodup
  have none : ∀ list : List Selection, selection.resultKey ∉ list.map Selection.resultKey →
      under selection.resultKey list = [] := by
    intro list absent
    refine List.filter_eq_nil_iff.mpr fun other inside same => absent ?_
    exact List.mem_map.mpr ⟨other, inside, beq_iff_eq.mp same⟩
  have absentBefore : selection.resultKey ∉ before.map Selection.resultKey :=
    fun known => nodup.2.2 _ known _ List.mem_cons_self rfl
  have absentAfter := (List.nodup_cons.mp nodup.2.1).1
  rw [under_append, under_cons, if_pos rfl, none _ absentBefore, none _ absentAfter,
    List.nil_append]

theorem agreeing_of_nodup {selections : List Selection}
    (nodup : (selections.map Selection.resultKey).Nodup) : Agreeing selections := by
  intro key first rest split other member
  have under := mem_under_iff.mp (split ▸ List.mem_cons_self : first ∈ _)
  rw [← under.2, under_of_nodup nodup under.1] at split
  cases split
  cases member

end Selection

def Head.joinedTo (head : Head) (selections : List Selection) : Head :=
  selections.foldl (fun head selection => head.addDirectives selection.head.directives) head

@[simp] theorem Head.name_joinedTo (head : Head) (selections : List Selection) :
    (head.joinedTo selections).name = head.name := by
  induction selections generalizing head with
  | nil => rfl
  | cons selection rest ih => exact ih _

@[simp] theorem Head.alias?_joinedTo (head : Head) (selections : List Selection) :
    (head.joinedTo selections).alias? = head.alias? := by
  induction selections generalizing head with
  | nil => rfl
  | cons selection rest ih => exact ih _

@[simp] theorem Head.options?_joinedTo (head : Head) (selections : List Selection) :
    (head.joinedTo selections).options? = head.options? := by
  induction selections generalizing head with
  | nil => rfl
  | cons selection rest ih => exact ih _

@[simp] theorem Head.resultKey_joinedTo (head : Head) (selections : List Selection) :
    (head.joinedTo selections).resultKey = head.resultKey := by
  simp [Head.resultKey]

namespace Slot

def head : Slot → Head
  | field head => head
  | link head _ => head

def isLink : Slot → Bool
  | field _ => false
  | link _ _ => true

def agrees (slot : Slot) (selection : Selection) : Bool :=
  slot.isLink == selection.isLink && slot.head.agrees selection.head

variable {slot : Slot} {selection other : Selection}

theorem agrees_ofSelection : (ofSelection selection).agrees other = selection.agrees other := by
  cases selection <;> rfl

theorem agrees_absorb (same : slot.agrees selection = true) :
    (slot.absorb selection).agrees other = slot.agrees other := by
  cases slot <;> cases selection <;> first
    | rfl
    | simp [agrees, isLink, Selection.isLink] at same

theorem join_eq_ok (same : slot.agrees selection = true) :
    slot.join selection = .ok (slot.absorb selection) := by
  cases slot <;> cases selection <;>
    simp_all [agrees, isLink, head, Selection.isLink, Selection.head, join, absorb]

theorem join_eq_error (differs : slot.agrees selection = false) :
    slot.join selection = .error (if slot.isLink = selection.isLink
      then .distinctSelections selection.resultKey
      else .fieldLinkCollision selection.resultKey) := by
  cases slot <;> cases selection <;>
    simp_all [agrees, isLink, head, Selection.isLink, Selection.head, join, Selection.resultKey]

def ofSelections? : List Selection → Option Slot
  | [] => none
  | first :: rest => some (rest.foldl absorb (ofSelection first))

theorem ofSelections?_append (selections : List Selection) (selection : Selection) :
    ofSelections? (selections ++ [selection]) =
      some ((ofSelections? selections).elim (ofSelection selection) (·.absorb selection)) := by
  cases selections with
  | nil => rfl
  | cons first rest => simp [ofSelections?, List.foldl_append]

variable {first : Selection} {rest : List Selection}

theorem agrees_foldl (agreeing : ∀ selection ∈ rest, first.agrees selection = true) :
    (rest.foldl absorb (ofSelection first)).agrees other = first.agrees other := by
  induction rest using List.reverseRecOn generalizing other with
  | nil => exact agrees_ofSelection
  | append_singleton rest last ih =>
      have before := fun selection member => agreeing selection (List.mem_append_left _ member)
      rw [List.foldl_append, List.foldl_cons, List.foldl_nil, agrees_absorb, ih before]
      rw [ih before]
      exact agreeing last (by simp)

theorem foldl_absorb_field {head : Head}
    (agreeing : ∀ selection ∈ rest, (Selection.field head).agrees selection = true) :
    rest.foldl absorb (.field head) = .field (head.joinedTo rest) := by
  induction rest using List.reverseRecOn with
  | nil => rfl
  | append_singleton rest last ih =>
      have same := agreeing last (by simp)
      rw [List.foldl_append, ih fun other member => agreeing other (List.mem_append_left _ member)]
      cases last with
      | link _ _ => simp [Selection.agrees, Selection.isLink] at same
      | field other => simp [Head.joinedTo, List.foldl_append, absorb, Selection.head]

theorem foldl_absorb_link {head : Head} {query : Query}
    (agreeing : ∀ selection ∈ rest, (Selection.link head query).agrees selection = true) :
    rest.foldl absorb (.link head [query]) =
      .link (head.joinedTo rest) (query :: rest.filterMap Selection.inner?) := by
  induction rest using List.reverseRecOn with
  | nil => rfl
  | append_singleton rest last ih =>
      have same := agreeing last (by simp)
      rw [List.foldl_append, ih fun other member => agreeing other (List.mem_append_left _ member)]
      cases last with
      | field _ => simp [Selection.agrees, Selection.isLink] at same
      | link other inner =>
          simp [Head.joinedTo, List.foldl_append, absorb, Selection.head, Selection.inner?]

theorem isLink_foldl (agreeing : ∀ selection ∈ rest, first.agrees selection = true) :
    (rest.foldl absorb (ofSelection first)).isLink = first.isLink := by
  cases first with
  | field head => rw [ofSelection, foldl_absorb_field agreeing]; rfl
  | link head query => rw [ofSelection, foldl_absorb_link agreeing]; rfl

def gather (selections : List Selection) : Entries Slot :=
  selections.foldl (fun slots selection =>
    slots.alter selection.resultKey (.ofSelection selection) (·.absorb selection)) []

theorem gather_append (selections : List Selection) (selection : Selection) :
    gather (selections ++ [selection]) = (gather selections).alter selection.resultKey
      (.ofSelection selection) (·.absorb selection) := by
  simp [gather, List.foldl_append]

theorem find?_gather (selections : List Selection) (key : String) :
    (gather selections).find? key = ofSelections? (Selection.under key selections) := by
  induction selections using List.reverseRecOn with
  | nil => rfl
  | append_singleton selections selection ih =>
      rw [gather_append, Entries.find?_alter, Selection.under_append]
      by_cases same : selection.resultKey = key
      · subst same
        rw [if_pos rfl, ih, Selection.under_single_self, ofSelections?_append]
      · rw [if_neg same, ih, Selection.under_single_of_ne same, List.append_nil]

theorem keys_gather (selections : List Selection) :
    (gather selections).keys = (selections.map Selection.resultKey).eraseDups := by
  induction selections using List.reverseRecOn with
  | nil => rfl
  | append_singleton selections selection ih =>
      rw [gather_append, List.map_append]
      exact Entries.keys_alter_of_seen ih _ _ _

theorem nodup_keys_gather (selections : List Selection) : (gather selections).keys.Nodup :=
  keys_gather selections ▸ nodup_eraseDups _

theorem mem_keys_gather_iff {selections : List Selection} {key : String} :
    key ∈ (gather selections).keys ↔ Selection.under key selections ≠ [] := by
  rw [Entries.mem_keys_iff, find?_gather]
  cases Selection.under key selections <;> simp [ofSelections?]

inductive Holds : List Selection → Slot → Prop
  | field (head rest) : Holds (.field head :: rest) (.field (head.joinedTo rest))
  | link (head query rest) : Holds (.link head query :: rest)
      (.link (head.joinedTo rest) (query :: rest.filterMap Selection.inner?))

theorem holds_of_mem_gather {selections : List Selection}
    (agreeing : Selection.Agreeing selections) {key : String}
    (member : (key, slot) ∈ gather selections) : Holds (Selection.under key selections) slot := by
  have found := Entries.find?_of_mem (nodup_keys_gather selections) member
  rw [find?_gather] at found
  generalize split : Selection.under key selections = before at found
  cases before with
  | nil => simp [ofSelections?] at found
  | cons first rest =>
      have agreeingRest := agreeing key first rest split
      obtain rfl := Option.some.inj found
      cases first with
      | field head => rw [ofSelection, foldl_absorb_field agreeingRest]; exact .field ..
      | link head query => rw [ofSelection, foldl_absorb_link agreeingRest]; exact .link ..

end Slot

namespace Gathered

variable {selections : List Selection} {selection : Selection} {groups : Entries (List Query)}

/-- Adding one more selection succeeds when all still agree, and otherwise its error is a clash. -/
theorem add_gather (agreeing : Selection.Agreeing selections) :
    (Selection.Agreeing (selections ++ [selection]) ∧
      add Slot.join ⟨Slot.gather selections, groups⟩ selection =
        .ok ⟨Slot.gather (selections ++ [selection]), groups⟩) ∨
    ∃ error, add Slot.join ⟨Slot.gather selections, groups⟩ selection = .error error ∧
      Selection.Clashing (selections ++ [selection]) error := by
  rw [Selection.agreeing_append_iff, Slot.gather_append, Entries.alter_eq_insert, add,
    Slot.find?_gather]
  generalize split : Selection.under selection.resultKey selections = before
  cases before with
  | nil => exact .inl ⟨⟨agreeing, by simp⟩, rfl⟩
  | cons first rest =>
      have agreeingRest := agreeing _ first rest split
      have whole := @Slot.agrees_foldl selection first rest agreeingRest
      simp only [Slot.ofSelections?, Option.elim_some]
      cases same : first.agrees selection with
      | true =>
          rw [Slot.join_eq_ok (whole.trans same)]
          exact .inl ⟨⟨agreeing, by simpa using same⟩, rfl⟩
      | false =>
          rw [Slot.join_eq_error (whole.trans same), Slot.isLink_foldl agreeingRest]
          refine .inr ⟨first.clash selection, rfl, selection.resultKey, first, rest ++ [selection],
            ?_, selection, by simp, same, rfl⟩
          rw [Selection.under_append, split, Selection.under_single_self, List.cons_append]

end Gathered

end GraphQuery
