import GraphQuery.Proofs.Except
import GraphQuery.Proofs.Query.Height
import GraphQuery.Proofs.Query.Slots
import GraphQuery.Query.Merge
import Mathlib.Data.List.Induction

/-!
One level of queries that are merged: the parts that they come to at a place, and gathering as one
pass over these parts.
-/

namespace GraphQuery

/-- A part of what queries come to at one place: a selection made there, or a query that is
made of the objects there on a type name. -/
inductive Part where
  | own (selection : Selection)
  | group (typeName : String) (query : Query)

namespace Part

def own? : Part → Option Selection
  | own selection => some selection
  | group _ _ => none

def below? : Part → Option Query
  | own selection => selection.inner?
  | group _ query => some query

def every (check : Head → Bool) : Part → Bool
  | own selection => selection.every check
  | group _ query => query.every check

def on? (typeName : String) : Part → Option Query
  | own _ => none
  | group other query => if other = typeName then some query else none

def selections (parts : List Part) : List Selection :=
  parts.filterMap own?

def queriesOn (typeName : String) (parts : List Part) : List Query :=
  parts.filterMap (on? typeName)

def groups (parts : List Part) : Entries (List Query) :=
  parts.foldl (fun groups part =>
    match part with
    | own _ => groups
    | group typeName query => groups.alter typeName [query] (· ++ [query])) []

variable {parts : List Part} {typeName : String}

theorem mem_selections_iff {selection : Selection} :
    selection ∈ selections parts ↔ .own selection ∈ parts := by
  simp only [selections, List.mem_filterMap]
  constructor
  · rintro ⟨_ | _, member, same⟩
    · exact Option.some.inj same ▸ member
    · cases same
  · exact fun member => ⟨_, member, rfl⟩

theorem mem_queriesOn_iff {query : Query} :
    query ∈ queriesOn typeName parts ↔ .group typeName query ∈ parts := by
  simp only [queriesOn, List.mem_filterMap]
  constructor
  · rintro ⟨_ | _, member, same⟩
    · cases same
    · simp only [on?, Option.ite_none_right_eq_some, Option.some.injEq] at same
      exact same.1 ▸ same.2 ▸ member
  · exact fun member => ⟨_, member, if_pos rfl⟩

theorem selections_cons_own (selection : Selection) (parts : List Part) :
    selections (own selection :: parts) = selection :: selections parts := rfl

theorem queriesOn_cons_group (typeName other : String) (query : Query) (parts : List Part) :
    queriesOn typeName (group other query :: parts) =
      if other = typeName then query :: queriesOn typeName parts
      else queriesOn typeName parts := by
  by_cases same : other = typeName <;> simp [queriesOn, on?, same]

theorem selections_append (parts others : List Part) :
    selections (parts ++ others) = selections parts ++ selections others :=
  List.filterMap_append

theorem selections_map_own (chosen : List Selection) : selections (chosen.map own) = chosen := by
  rw [selections, List.filterMap_map]
  exact List.filterMap_some

theorem queriesOn_map_own (chosen : List Selection) : queriesOn typeName (chosen.map own) = [] := by
  rw [queriesOn, List.filterMap_map]
  exact List.filterMap_eq_nil_iff.mpr fun _ _ => rfl

theorem selections_append_own (parts : List Part) (selection : Selection) :
    selections (parts ++ [own selection]) = selections parts ++ [selection] := by
  rw [selections, List.filterMap_append]
  rfl

theorem selections_append_group (parts : List Part) (typeName : String) (query : Query) :
    selections (parts ++ [group typeName query]) = selections parts := by
  rw [selections, List.filterMap_append]
  exact List.append_nil _

theorem queriesOn_append (typeName : String) (parts others : List Part) :
    queriesOn typeName (parts ++ others) = queriesOn typeName parts ++ queriesOn typeName others :=
  List.filterMap_append

theorem groups_append_own (parts : List Part) (selection : Selection) :
    groups (parts ++ [own selection]) = groups parts := by
  rw [groups, List.foldl_append]
  rfl

theorem groups_append_group (parts : List Part) (typeName : String) (query : Query) :
    groups (parts ++ [group typeName query]) =
      (groups parts).alter typeName [query] (· ++ [query]) := by
  rw [groups, List.foldl_append]
  rfl

theorem find?_groups (parts : List Part) (typeName : String) :
    (groups parts).find? typeName =
      if queriesOn typeName parts = [] then none else some (queriesOn typeName parts) := by
  induction parts using List.reverseRecOn with
  | nil => rfl
  | append_singleton parts part ih =>
      rw [queriesOn_append]
      cases part with
      | own selection =>
          have none : queriesOn typeName [own selection] = [] := rfl
          rw [groups_append_own, ih, none, List.append_nil]
      | group other query =>
          rw [groups_append_group, Entries.find?_alter]
          by_cases same : other = typeName
          · subst same
            have single : queriesOn other [group other query] = [query] := by simp [queriesOn, on?]
            rw [if_pos rfl, ih, single]
            split <;> simp_all
          · have none : queriesOn typeName [group other query] = [] := by
              simp [queriesOn, on?, same]
            rw [if_neg same, ih, none, List.append_nil]

def typeName? : Part → Option String
  | own _ => none
  | group typeName _ => some typeName

theorem keys_groups (parts : List Part) :
    (groups parts).keys = (parts.filterMap typeName?).eraseDups := by
  induction parts using List.reverseRecOn with
  | nil => rfl
  | append_singleton parts part ih =>
      rw [List.filterMap_append]
      cases part with
      | own selection =>
          rw [groups_append_own, ih]
          exact congrArg List.eraseDups (List.append_nil _).symm
      | group typeName query =>
          rw [groups_append_group]
          exact Entries.keys_alter_of_seen ih _ _ _

theorem nodup_keys_groups (parts : List Part) : (groups parts).keys.Nodup :=
  keys_groups parts ▸ nodup_eraseDups _

theorem mem_keys_groups_iff : typeName ∈ (groups parts).keys ↔ queriesOn typeName parts ≠ [] := by
  rw [Entries.mem_keys_iff, find?_groups]
  split <;> simp_all

theorem queries_of_mem_groups {queries : List Query} (member : (typeName, queries) ∈ groups parts) :
    queries = queriesOn typeName parts := by
  have found := Entries.find?_of_mem (nodup_keys_groups parts) member
  rw [find?_groups] at found
  split at found
  · cases found
  · exact (Option.some.inj found).symm

theorem typeNames_map_own (chosen : List Selection) :
    (chosen.map own).filterMap typeName? = [] := by
  rw [List.filterMap_map]
  exact List.filterMap_eq_nil_iff.mpr fun _ _ => rfl

theorem queriesOn_of_nodup (nodup : (parts.filterMap typeName?).Nodup) {typeName : String}
    {query : Query} (member : .group typeName query ∈ parts) :
    queriesOn typeName parts = [query] := by
  obtain ⟨before, after, rfl⟩ := List.append_of_mem member
  have split : (before ++ group typeName query :: after).filterMap typeName? =
      before.filterMap typeName? ++ typeName :: after.filterMap typeName? :=
    List.filterMap_append
  rw [split, List.nodup_append] at nodup
  have nothing : ∀ list : List Part, typeName ∉ list.filterMap typeName? →
      queriesOn typeName list = [] := by
    intro list absent
    refine List.eq_nil_iff_forall_not_mem.mpr fun other inside => absent ?_
    exact List.mem_filterMap.mpr ⟨_, mem_queriesOn_iff.mp inside, rfl⟩
  have absentBefore : typeName ∉ before.filterMap typeName? :=
    fun known => nodup.2.2 _ known _ List.mem_cons_self rfl
  have absentAfter := (List.nodup_cons.mp nodup.2.1).1
  rw [queriesOn_append, queriesOn_cons_group, if_pos rfl, nothing _ absentBefore,
    nothing _ absentAfter, List.nil_append]

end Part

namespace MergePolicy

variable {κ ε : Type}

mutual

def parts (policy : MergePolicy κ ε) (place : κ) : Query → List Part
  | .mk selections fragments _ => selections.map .own ++ partsOfFragments policy place fragments

def partsOfFragments (policy : MergePolicy κ ε) (place : κ) : List Fragment → List Part
  | [] => []
  | fragment :: rest => partsOfFragment policy place fragment ++ partsOfFragments policy place rest

def partsOfFragment (policy : MergePolicy κ ε) (place : κ) : Fragment → List Part
  | .mk none query => parts policy place query
  | .mk (some typeName) query =>
      match policy.treatment place typeName with
      | .expand => parts policy place query
      | .hoist shared =>
          let (hoisted, specific) :=
            query.selections.partition fun selection => shared.contains selection.name
          hoisted.map .own ++ [.group typeName (.mk specific query.fragments query.ordered)]
      | .keep => [.group typeName query]

end

variable {policy : MergePolicy κ ε} {place : κ} {query : Query} {part : Part}

theorem parts_eq (policy : MergePolicy κ ε) (place : κ) (query : Query) :
    policy.parts place query =
      query.selections.map .own ++ query.fragments.flatMap (policy.partsOfFragment place) := by
  obtain ⟨selections, fragments, ordered⟩ := query
  rw [parts]
  congr 1
  simp only [Query.fragments]
  induction fragments with
  | nil => rfl
  | cons fragment rest ih => rw [partsOfFragments, ih, List.flatMap_cons]

def specific (shared : List String) (query : Query) : Query :=
  .mk (query.selections.filter fun selection => !shared.contains selection.name) query.fragments
    query.ordered

inductive PartOf (policy : MergePolicy κ ε) (place : κ) : Fragment → Part → Prop
  | unconditional {query : Query} {part : Part} : part ∈ policy.parts place query →
      PartOf policy place (.mk none query) part
  | expanded {typeName : String} {query : Query} {part : Part} :
      policy.treatment place typeName = .expand → part ∈ policy.parts place query →
      PartOf policy place (.mk (some typeName) query) part
  | hoisted {typeName : String} {shared : List String} {query : Query} {selection : Selection} :
      policy.treatment place typeName = .hoist shared → selection ∈ query.selections →
      shared.contains selection.name = true →
      PartOf policy place (.mk (some typeName) query) (.own selection)
  | specific {typeName : String} {shared : List String} {query : Query} :
      policy.treatment place typeName = .hoist shared →
      PartOf policy place (.mk (some typeName) query) (.group typeName (specific shared query))
  | kept {typeName : String} {query : Query} : policy.treatment place typeName = .keep →
      PartOf policy place (.mk (some typeName) query) (.group typeName query)

theorem mem_partsOfFragment_iff {fragment : Fragment} :
    part ∈ policy.partsOfFragment place fragment ↔ policy.PartOf place fragment part := by
  obtain ⟨_ | typeName, query⟩ := fragment
  · rw [partsOfFragment]
    exact ⟨.unconditional, fun | .unconditional member => member⟩
  · cases treated : policy.treatment place typeName with
    | expand =>
        simp only [partsOfFragment, treated]
        refine ⟨.expanded treated, fun ofFragment => ?_⟩
        cases ofFragment <;> simp_all
    | keep =>
        simp only [partsOfFragment, treated, List.mem_singleton]
        constructor
        · rintro rfl
          exact .kept treated
        · intro ofFragment
          cases ofFragment <;> simp_all
    | hoist shared =>
        simp only [partsOfFragment, treated, List.partition_eq_filter_filter, List.mem_append,
          List.mem_map, List.mem_filter, List.mem_singleton]
        constructor
        · rintro (⟨selection, ⟨member, hoisted⟩, rfl⟩ | rfl)
          · exact .hoisted treated member hoisted
          · exact .specific treated
        · intro ofFragment
          cases ofFragment with
          | hoisted same member hoisted =>
              obtain rfl : shared = _ := Treatment.hoist.inj (treated.symm.trans same)
              exact .inl ⟨_, ⟨member, hoisted⟩, rfl⟩
          | specific same =>
              obtain rfl : shared = _ := Treatment.hoist.inj (treated.symm.trans same)
              exact .inr rfl
          | expanded same _ | kept same => simp [treated] at same

theorem mem_parts_iff : part ∈ policy.parts place query ↔
    (∃ selection ∈ query.selections, .own selection = part) ∨
      ∃ fragment ∈ query.fragments, policy.PartOf place fragment part := by
  simp only [parts_eq, List.mem_append, List.mem_map, List.mem_flatMap, mem_partsOfFragment_iff]

theorem every_specific {check : Head → Bool} (shared : List String)
    (passes : query.every check = true) : (specific shared query).every check = true := by
  obtain ⟨selections, fragments, ordered⟩ := query
  rw [Query.every_mk_iff] at passes
  rw [specific, Query.every_mk_iff]
  exact ⟨fun selection member => passes.1 selection (List.mem_filter.mp member).1, passes.2⟩

theorem every_of_part {check : Head → Bool} (passes : query.every check = true)
    (member : part ∈ policy.parts place query) : part.every check = true := by
  induction query using Query.inductFragments with
  | step query ih =>
      obtain ⟨selections, fragments, ordered⟩ := query
      rw [Query.every_mk_iff] at passes
      rcases mem_parts_iff.mp member with ⟨selection, own, rfl⟩ | ⟨fragment, inside, ofFragment⟩
      · exact passes.1 selection own
      · have passesInside := passes.2 fragment inside
        cases ofFragment with
        | unconditional member => exact ih _ inside passesInside member
        | expanded _ member => exact ih _ inside passesInside member
        | @hoisted _ _ inner _ _ own _ =>
            obtain ⟨innerSelections, innerFragments, innerOrdered⟩ := inner
            exact (Query.every_mk_iff.mp passesInside).1 _ own
        | specific _ => exact every_specific _ passesInside
        | kept _ => exact passesInside

/-! What merging takes out of a fragment, and what is left in it -/

variable {typeName : String}

def taken (policy : MergePolicy κ ε) (place : κ) (typeName : String) (query : Query) :
    List Selection :=
  match policy.treatment place typeName with
  | .hoist shared => query.selections.filter fun selection => shared.contains selection.name
  | _ => []

def remaining (policy : MergePolicy κ ε) (place : κ) (typeName : String) (query : Query) : Query :=
  match policy.treatment place typeName with
  | .hoist shared => specific shared query
  | _ => query

theorem mem_taken_iff {selection : Selection} : selection ∈ policy.taken place typeName query ↔
    ∃ shared, policy.treatment place typeName = .hoist shared ∧ selection ∈ query.selections ∧
      shared.contains selection.name = true := by
  rw [taken]
  cases policy.treatment place typeName with
  | expand | keep => simp
  | hoist shared => simp

theorem partsOfFragment_eq (kept : policy.treatment place typeName ≠ .expand) :
    policy.partsOfFragment place (.mk (some typeName) query) =
      (policy.taken place typeName query).map .own ++
        [.group typeName (policy.remaining place typeName query)] := by
  rw [partsOfFragment, taken, remaining]
  cases treated : policy.treatment place typeName with
  | expand => exact (kept treated).elim
  | keep => rfl
  | hoist shared =>
      simp only [List.partition_eq_filter_filter]
      rfl

theorem specific_eq_self {shared : List String}
    (nothing : (query.selections.filter fun selection => shared.contains selection.name) = []) :
    specific shared query = query := by
  obtain ⟨selections, fragments, ordered⟩ := query
  rw [Query.selections, List.filter_eq_nil_iff] at nothing
  rw [specific, Query.selections, List.filter_eq_self.mpr]
  · rfl
  · intro selection member
    simpa using nothing selection member

theorem remaining_eq_self (nothing : policy.taken place typeName query = []) :
    policy.remaining place typeName query = query := by
  rw [taken] at nothing
  rw [remaining]
  split at nothing
  · exact specific_eq_self nothing
  · rfl

theorem not_expanded_of_group {inner : Query}
    (member : .group typeName inner ∈ policy.parts place query) :
    policy.treatment place typeName ≠ .expand := by
  induction query using Query.inductFragments with
  | step query ih =>
      rcases mem_parts_iff.mp member with ⟨selection, _, same⟩ | ⟨fragment, inside, ofFragment⟩
      · cases same
      · cases ofFragment with
        | unconditional member => exact ih _ inside member
        | expanded _ member => exact ih _ inside member
        | specific treated => exact fun expanded => by cases treated.symm.trans expanded
        | kept treated => exact fun expanded => by cases treated.symm.trans expanded

end MergePolicy

namespace Gathered

variable {ε : Type}

def take (combine : Slot → Selection → Except ε Slot) (gathered : Gathered) :
    Part → Except ε Gathered
  | .own selection => gathered.add combine selection
  | .group typeName query => .ok (gathered.push typeName query)

def ofParts (parts : List Part) : Gathered :=
  ⟨Slot.gather (Part.selections parts), Part.groups parts⟩

/-- Parts are gathered when their selections agree, and otherwise there is a clash among these. -/
theorem foldlM_take (parts : List Part) :
    (Selection.Agreeing (Part.selections parts) ∧
      parts.foldlM (take Slot.join) empty = .ok (ofParts parts)) ∨
    ∃ error, parts.foldlM (take Slot.join) empty = .error error ∧
      Selection.Clashing (Part.selections parts) error := by
  -- each part is taken into what those before it came to, so the induction is from the end
  induction parts using List.reverseRecOn with
  | nil => exact .inl ⟨Selection.agreeing_nil, rfl⟩
  | append_singleton parts part ih =>
      simp only [List.foldlM_append, List.foldlM_cons, List.foldlM_nil, bind_pure]
      rcases ih with ⟨agreeing, done⟩ | ⟨error, failed, clashing⟩
      · rw [done, ok_bind]
        cases part with
        | own selection =>
            rw [ofParts, ofParts, Part.selections_append_own, Part.groups_append_own]
            exact add_gather agreeing
        | group typeName query =>
            rw [ofParts, ofParts, Part.selections_append_group, Part.groups_append_group]
            exact .inl ⟨agreeing, rfl⟩
      · rw [failed, error_bind]
        refine .inr ⟨error, rfl, ?_⟩
        cases part with
        | own selection =>
            rw [Part.selections_append_own]
            exact clashing.append
        | group typeName query =>
            rw [Part.selections_append_group]
            exact clashing

theorem addAll_eq (combine : Slot → Selection → Except ε Slot) (gathered : Gathered)
    (selections : List Selection) : gathered.addAll combine selections =
      (selections.map Part.own).foldlM (take combine) gathered := by
  rw [List.foldlM_map]
  rfl

end Gathered

namespace MergePolicy

variable {κ ε : Type} {policy : MergePolicy κ ε} {place : κ}

theorem gatherFragments_cons {fragment : Fragment} {rest : List Fragment} {gathered : Gathered}
    (inside : ∀ gathered, policy.gather place fragment.query gathered =
      (policy.parts place fragment.query).foldlM (Gathered.take policy.combine) gathered) :
    policy.gatherFragments place (fragment :: rest) gathered =
      ((policy.partsOfFragment place fragment).foldlM (Gathered.take policy.combine) gathered >>=
        policy.gatherFragments place rest) := by
  obtain ⟨_ | typeName, query⟩ := fragment
  · rw [gatherFragments, partsOfFragment]
    exact congrArg (· >>= _) (inside gathered)
  · rw [gatherFragments, partsOfFragment]
    cases policy.treatment place typeName with
    | expand => exact congrArg (· >>= _) (inside gathered)
    | hoist shared =>
        simp only [Gathered.addAll_eq, List.foldlM_append, bind_assoc]
        rfl
    | keep => rfl

theorem gather_eq (query : Query) (gathered : Gathered) :
    policy.gather place query gathered =
      (policy.parts place query).foldlM (Gathered.take policy.combine) gathered := by
  induction query using Query.inductFragments generalizing gathered with
  | step query ih =>
      obtain ⟨selections, fragments, ordered⟩ := query
      rw [parts_eq, List.foldlM_append, gather, Gathered.addAll_eq]
      refine bind_congr fun gathered => ?_
      simp only [Query.fragments] at ih ⊢
      induction fragments generalizing gathered with
      | nil => rfl
      | cons fragment rest ihRest =>
          rw [gatherFragments_cons (ih fragment List.mem_cons_self), List.flatMap_cons,
            List.foldlM_append]
          exact bind_congr (ihRest fun other member => ih other (List.mem_cons_of_mem _ member))

theorem gatherAll_eq (queries : List Query) : policy.gatherAll place queries =
    (queries.flatMap (policy.parts place)).foldlM (Gathered.take policy.combine) .empty := by
  rw [gatherAll]
  generalize Gathered.empty = gathered
  induction queries generalizing gathered with
  | nil => rfl
  | cons query rest ih =>
      rw [List.foldlM_cons, gather_eq, List.flatMap_cons, List.foldlM_append]
      exact bind_congr ih

end MergePolicy

end GraphQuery
