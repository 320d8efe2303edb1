import GraphQuery.Proofs.Query.Selects
import GraphQuery.Proofs.Typed.Tracked

/-!
The requirement of one reference: links along the labels of its path, and at the end a field, or a
link with what is asked for below.
-/

namespace GraphQuery

namespace Query

def nest : List String → Query → Query
  | [], query => query
  | name :: path, query => .ofSelections [.link (.named name) (nest path query)]

def pointing : List String → Query
  | [] => .empty
  | [name] => .ofSelections [.field (.named name)]
  | name :: path => .ofSelections [.link (.named name) (pointing path)]

variable {link : Bool} {name : String} {path sought : List String} {query : Query}

theorem nest_append (path rest : List String) (query : Query) :
    nest (path ++ rest) query = nest path (nest rest query) := by
  induction path with
  | nil => rfl
  | cons name path ih => simp [nest, ih]

theorem pointing_append (path : List String) (name : String) :
    pointing (path ++ [name]) = nest path (.ofSelections [.field (.named name)]) := by
  induction path with
  | nil => rfl
  | cons first path ih =>
      cases path with
      | nil => simp [pointing, nest]
      | cons second path =>
          simp only [List.cons_append, pointing, nest] at ih ⊢
          rw [ih]

theorem plain_link (name : String) (plain : query.Plain) :
    Plain (.ofSelections [.link (.named name) query]) := by
  refine .mk ?_ ?_
  · intro selection member
    simp only [List.mem_singleton] at member
    subst member
    rfl
  · intro head inner member
    simp only [List.mem_singleton, Selection.link.injEq] at member
    exact member.2 ▸ plain

theorem plain_field (name : String) : Plain (.ofSelections [.field (.named name)]) := by
  refine .mk ?_ (by simp)
  intro selection member
  simp only [List.mem_singleton] at member
  subst member
  rfl

theorem selects_link_iff : (ofSelections [.link (.named name) query]).Selects link sought ↔
    (link = true ∧ sought = [name]) ∨ ∃ rest, sought = name :: rest ∧ query.Selects link rest := by
  constructor
  · intro selects
    cases selects with
    | here member kind =>
        simp only [ofSelections, selections, List.mem_singleton] at member
        subst member
        exact Or.inl ⟨kind.symm, rfl⟩
    | under member inner =>
        simp only [ofSelections, selections, List.mem_singleton, Selection.link.injEq] at member
        obtain ⟨rfl, rfl⟩ := member
        exact Or.inr ⟨_, rfl, inner⟩
  · have member : Selection.link (.named name) query ∈
        (ofSelections [.link (.named name) query]).selections := List.mem_singleton_self _
    rintro (⟨rfl, rfl⟩ | ⟨rest, rfl, inner⟩)
    · exact .here member rfl
    · exact .under member inner

theorem selects_field_iff : (ofSelections [.field (.named name)]).Selects link sought ↔
    link = false ∧ sought = [name] := by
  constructor
  · intro selects
    cases selects with
    | here member kind =>
        simp only [ofSelections, selections, List.mem_singleton] at member
        subst member
        exact ⟨kind.symm, rfl⟩
    | under member _ => simp [ofSelections, selections] at member
  · rintro ⟨rfl, rfl⟩
    have member : Selection.field (.named name) ∈
        (ofSelections [.field (.named name)]).selections := List.mem_singleton_self _
    exact .here member rfl

theorem selects_nest_iff : (nest path query).Selects link sought ↔
    (link = true ∧ sought ≠ [] ∧ sought <+: path) ∨
      ∃ rest, sought = path ++ rest ∧ query.Selects link rest := by
  induction path generalizing sought with
  | nil => simp [nest]
  | cons name path ih =>
      rw [nest, selects_link_iff]
      constructor
      · rintro (⟨kind, rfl⟩ | ⟨rest, rfl, inner⟩)
        · exact Or.inl ⟨kind, by simp, ⟨path, rfl⟩⟩
        · rcases ih.mp inner with ⟨kind, _, before⟩ | ⟨more, rfl, below⟩
          · exact Or.inl ⟨kind, by simp, List.cons_prefix_cons.mpr ⟨rfl, before⟩⟩
          · exact Or.inr ⟨more, rfl, below⟩
      · rintro (⟨kind, begun, before⟩ | ⟨more, rfl, below⟩)
        · obtain ⟨first, rest, rfl⟩ := List.exists_cons_of_ne_nil begun
          obtain ⟨rfl, inside⟩ := List.cons_prefix_cons.mp before
          by_cases last : rest = []
          · exact Or.inl ⟨kind, by simp [last]⟩
          · exact Or.inr ⟨rest, rfl, ih.mpr (Or.inl ⟨kind, last, inside⟩)⟩
        · exact Or.inr ⟨path ++ more, rfl, ih.mpr (Or.inr ⟨more, rfl, below⟩)⟩

end Query

namespace Requirement

variable {typing : Typing} {references : References} {roots : List (String × Ty)} {index : Nat}

theorem plain_wrap {types : Registry} {below? : Option Query} {reference : Reference}
    (plain : ∀ below, below? = some below → below.Plain) :
    ∀ above, wrap types below? reference = some above → above.Plain := by
  intro above made
  simp only [wrap] at made
  split at made
  · rename_i name _ _
    simp only [Option.some.injEq] at made
    subst made
    refine Query.plain_link name ?_
    cases below? with
    | none => exact Query.plain_empty
    | some below => exact plain below rfl
  · simp only [Option.some.injEq] at made
    subst made
    exact Query.plain_field _
  · exact plain above made
  · simp at made

theorem plain_ofReference {types : Registry} {references : References} {index : Nat}
    {below? : Option Query} (plain : ∀ below, below? = some below → below.Plain) :
    ∀ query ∈ ofReference types references index below?, query.Plain := by
  intro query member
  simp only [ofReference, Option.mem_toList] at member
  generalize references.chain index = chain at member
  induction chain generalizing below? with
  | nil => exact plain query member
  | cons reference rest ih => exact ih (plain_wrap plain) member

theorem head_of_ofReference (tracked : typing.Tracked references roots index)
    (ordered : references.Ordered) {below? : Option Query} {query : Query}
    (member : query ∈ ofReference typing.types references index below?) {link : Bool}
    {path : List String} (selects : query.Selects link path) :
    path.head? = (references.path index).head? := by
  simp only [ofReference, Option.mem_toList] at member
  induction tracked generalizing below? with
  | @root index name ty entry found =>
      rw [References.chain_of_root entry rfl] at member
      rw [References.path_of_root entry rfl]
      simp only [List.foldl_cons, List.foldl_nil, wrap] at member
      split at member
      · rename_i label same _
        simp only [Option.some.injEq] at same member
        subst same member
        rcases Query.selects_link_iff.mp selects with ⟨_, rfl⟩ | ⟨rest, rfl, _⟩ <;> rfl
      · rename_i label same _
        simp only [Option.some.injEq] at same member
        subst same member
        obtain ⟨_, rfl⟩ := Query.selects_field_iff.mp selects
        rfl
      · rename_i unlabelled _
        simp at unlabelled
      · rename_i unlabelled _
        simp at unlabelled
  | field entry _ _ tracked ih | item entry _ tracked ih | present entry _ tracked ih =>
      rw [References.chain_of_back ordered entry rfl] at member
      rw [ih member, References.path_of_back ordered entry rfl]
      obtain ⟨first, rest, same⟩ := List.exists_cons_of_ne_nil (tracked.path_ne_nil ordered)
      simp [same]

def FlatRoot (types : Registry) (roots : List (String × Ty)) (path : List String) : Prop :=
  ∀ name root, path.head? = some name → roots.reverse.lookup name = some root → types.Flat root

theorem FlatRoot.leads {types : Registry} {path : List String} {ty : Ty}
    (flat : FlatRoot types roots path) (leads : Typing.Leads types roots path ty) :
    types.Flat ty := by
  obtain ⟨name, labels, root, rfl, found, walks⟩ := leads
  exact walks.flat (flat name root rfl found)

theorem FlatRoot.ofBack {types : Registry} {back : Nat} {reference : Reference}
    (flat : FlatRoot types roots (references.path index)) (ordered : references.Ordered)
    (entry : references.get? index = some reference) (refers : reference.back? = some back)
    (begun : references.path back ≠ []) : FlatRoot types roots (references.path back) := by
  intro name root first found
  refine flat name root ?_ found
  obtain ⟨one, rest, same⟩ := List.exists_cons_of_ne_nil begun
  rw [References.path_of_back ordered entry refers, same]
  simpa [same] using first

theorem flat_of_tracked (tracked : typing.Tracked references roots index)
    (ordered : references.Ordered)
    (flat : FlatRoot typing.types roots (references.path index)) :
    typing.types.Flat (references.ty index) := by
  obtain ⟨outer, leads, peels⟩ := tracked.reached ordered
  exact peels.flat (flat.leads leads)

theorem ofReference_of_unlabelled {types : Registry} {back : Nat} {ty : Ty}
    (ordered : references.Ordered) (entry : references.get? index = some ⟨some back, none, ty⟩)
    (same : types.isLink (references.ty back) = types.isLink ty)
    (whole : ∀ below?, ofReference types references back below? =
      [if types.isLink (references.ty back)
        then .nest (references.path back) (below?.getD .empty)
        else .pointing (references.path back)]) (below? : Option Query) :
    ofReference types references index below? =
      [if types.isLink (references.ty index)
        then .nest (references.path index) (below?.getD .empty)
        else .pointing (references.path index)] := by
  have path : references.path index = references.path back := by
    simp [References.path_of_back ordered entry rfl]
  rw [path, References.ty_of_get? entry, ← same]
  simp only [ofReference, References.chain_of_back ordered entry rfl, List.foldl_cons, wrap,
    ← same] at whole ⊢
  cases linked : types.isLink (references.ty back) with
  | true =>
      simp only [linked, if_true] at whole
      simpa using whole below?
  | false =>
      simp only [linked, Bool.false_eq_true, if_false] at whole
      simpa using whole none

/-- What a reference requires, when types are flat: links along its path, or a field at its end. -/
theorem ofReference_eq (tracked : typing.Tracked references roots index)
    (ordered : references.Ordered)
    (flat : FlatRoot typing.types roots (references.path index)) (below? : Option Query) :
    ofReference typing.types references index below? =
      [if typing.types.isLink (references.ty index)
        then .nest (references.path index) (below?.getD .empty)
        else .pointing (references.path index)] := by
  induction tracked generalizing below? with
  | @root index name ty entry found =>
      rw [ofReference, References.chain_of_root entry rfl, References.path_of_root entry rfl,
        References.ty_of_get? entry]
      simp only [List.foldl_cons, List.foldl_nil, wrap]
      cases typing.types.isLink ty <;> simp [Query.nest, Query.pointing]
  | @field index back name fields ty entry record declared tracked ih =>
      have flatBack := flat.ofBack ordered entry rfl (tracked.path_ne_nil ordered)
      have linkBack : typing.types.isLink (references.ty back) = true :=
        ((flat_of_tracked tracked ordered flatBack).isLink_iff).mpr (.record record)
      have whole := ih flatBack
      simp only [ofReference, linkBack, if_true] at whole
      rw [ofReference, References.chain_of_back ordered entry rfl,
        References.path_of_back ordered entry rfl, References.ty_of_get? entry, List.foldl_cons,
        whole]
      simp only [wrap, Option.toList_some, Query.nest_append, Query.pointing_append]
      cases typing.types.isLink ty <;> simp [Query.nest]
  | @item index back ty entry sequence tracked ih =>
      have flatBack := flat.ofBack ordered entry rfl (tracked.path_ne_nil ordered)
      have flatIndex := flat_of_tracked (.item entry sequence tracked) ordered flat
      rw [References.ty_of_get? entry] at flatIndex
      have same := (flat_of_tracked tracked ordered flatBack).isLink_eq flatIndex
        (Registry.holdsObjects_sequence_iff sequence)
      exact ofReference_of_unlabelled ordered entry same (ih flatBack) below?
  | @present index back ty entry optional tracked ih =>
      have flatBack := flat.ofBack ordered entry rfl (tracked.path_ne_nil ordered)
      have flatIndex := flat_of_tracked (.present entry optional tracked) ordered flat
      rw [References.ty_of_get? entry] at flatIndex
      have same := (flat_of_tracked tracked ordered flatBack).isLink_eq flatIndex
        (Registry.holdsObjects_optional_iff optional)
      exact ofReference_of_unlabelled ordered entry same (ih flatBack) below?

end Requirement

end GraphQuery
