import GraphQuery.Query.Basic

/-!
The height of queries, which is greater than that of what is in their links and fragments.
-/

namespace GraphQuery

namespace Query

variable {query : Query} {queries : List Query} {bound : Nat}

theorem heightOfSelections_le_iff {selections : List Selection} :
    heightOfSelections selections ≤ bound ↔
      ∀ head inner, .link head inner ∈ selections → inner.height ≤ bound := by
  induction selections with
  | nil => simp [heightOfSelections]
  | cons selection rest ih =>
      cases selection with
      | field head => simp [heightOfSelections, ih]
      | link head query =>
          simp only [heightOfSelections, Nat.max_le, ih, List.mem_cons, Selection.link.injEq]
          constructor
          · rintro ⟨first, others⟩ headToo inner (⟨_, rfl⟩ | member)
            · exact first
            · exact others headToo inner member
          · intro each
            exact ⟨each head query (.inl ⟨rfl, rfl⟩),
              fun headToo inner member => each headToo inner (.inr member)⟩

theorem heightOfFragments_le_iff {fragments : List Fragment} :
    heightOfFragments fragments ≤ bound ↔
      ∀ fragment ∈ fragments, fragment.query.height ≤ bound := by
  induction fragments with
  | nil => simp [heightOfFragments]
  | cons fragment rest ih =>
      obtain ⟨typeName?, inner⟩ := fragment
      rw [heightOfFragments, Nat.max_le, ih, List.forall_mem_cons]
      rfl

theorem height_le_iff : query.height ≤ bound + 1 ↔
    (∀ head inner, .link head inner ∈ query.selections → inner.height ≤ bound) ∧
      ∀ fragment ∈ query.fragments, fragment.query.height ≤ bound := by
  obtain ⟨selections, fragments, ordered⟩ := query
  rw [height, Nat.add_le_add_iff_right, Nat.max_le, heightOfSelections_le_iff,
    heightOfFragments_le_iff]
  rfl

theorem height_pos (query : Query) : 0 < query.height := by
  obtain ⟨selections, fragments, ordered⟩ := query
  exact Nat.succ_pos _

theorem height_lt_of_link {inner : Query} {head : Head}
    (member : .link head inner ∈ query.selections) : inner.height < query.height := by
  have positive := query.height_pos
  obtain ⟨bound, same⟩ : ∃ bound, query.height = bound + 1 := ⟨query.height - 1, by omega⟩
  have below := (height_le_iff.mp (Nat.le_of_eq same)).1 head inner member
  omega

theorem height_lt_of_fragment {fragment : Fragment} (member : fragment ∈ query.fragments) :
    fragment.query.height < query.height := by
  have positive := query.height_pos
  obtain ⟨bound, same⟩ : ∃ bound, query.height = bound + 1 := ⟨query.height - 1, by omega⟩
  have below := (height_le_iff.mp (Nat.le_of_eq same)).2 fragment member
  omega

theorem heightOfAll_le_iff :
    heightOfAll queries ≤ bound ↔ ∀ query ∈ queries, query.height ≤ bound := by
  induction queries with
  | nil => simp [heightOfAll]
  | cons query rest ih =>
      simp only [heightOfAll, List.foldr_cons, Nat.max_le, List.forall_mem_cons] at ih ⊢
      rw [ih]

theorem height_le_heightOfAll (member : query ∈ queries) : query.height ≤ heightOfAll queries :=
  heightOfAll_le_iff.mp (Nat.le_refl _) query member

theorem eq_nil_of_heightOfAll (flat : heightOfAll queries ≤ 0) : queries = [] := by
  cases queries with
  | nil => rfl
  | cons query rest =>
      have first := heightOfAll_le_iff.mp flat query List.mem_cons_self
      have positive := query.height_pos
      omega

theorem induct {motive : Query → Prop}
    (step : ∀ query : Query, (∀ head inner, .link head inner ∈ query.selections → motive inner) →
      (∀ fragment ∈ query.fragments, motive fragment.query) → motive query)
    (query : Query) : motive query := by
  induction size : query.height using Nat.strongRecOn generalizing query with
  | ind size ih =>
      subst size
      exact step query (fun _ _ member => ih _ (height_lt_of_link member) _ rfl)
        fun _ member => ih _ (height_lt_of_fragment member) _ rfl

/-- Induction over the fragments within a query, but not over what is below its links. -/
theorem inductFragments {motive : Query → Prop}
    (step : ∀ query : Query, (∀ fragment ∈ query.fragments, motive fragment.query) → motive query)
    (query : Query) : motive query :=
  induct (fun query _ inside => step query inside) query

/-- Induction over lists of queries that are merged at once, by the greatest height in them. -/
theorem inductAll {motive : List Query → Prop}
    (step : ∀ queries, (∀ inners, heightOfAll inners < heightOfAll queries → motive inners) →
      motive queries) (queries : List Query) : motive queries := by
  induction bound : heightOfAll queries using Nat.strongRecOn generalizing queries with
  | ind bound ih =>
      subst bound
      exact step queries fun inners lower => ih _ lower inners rfl

end Query

end GraphQuery
