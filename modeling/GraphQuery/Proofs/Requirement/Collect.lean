import GraphQuery.Proofs.Requirement.Chain
import GraphQuery.Proofs.Requirement.Template
import GraphQuery.Proofs.Typed.Parts

/-!
What a well-typed expression requires: paths of labels that lead through the types of the graph, to
objects where a link is required.
-/

namespace GraphQuery.Requirement

variable {typing : Typing} {references : References} {roots : List (String × Ty)}
  {typed : Typed} {query : Query} {index : Nat}

structure Templated (typing : Typing) (references : References) (typed : Typed) (index : Nat)
    (below : Query) : Prop where
  argument : ∃ function params args arg param, typed.Contains (.call function params args) ∧
    (arg, param) ∈ args.zip params ∧ arg.reference? = some index ∧
    param.template? = some below ∧ typing.Fits references arg param

def Requires (typing : Typing) (references : References) (roots : List (String × Ty))
    (typed : Typed) (query : Query) : Prop :=
  ∃ index below?, typing.Tracked references roots index ∧
    query ∈ ofReference typing.types references index below? ∧
    ∀ below, below? = some below → Templated typing references typed index below

theorem mem_collectList_iff {types : Registry} {items : List Typed} :
    query ∈ collectList types references items ↔
      ∃ item ∈ items, query ∈ collect types references item := by
  induction items with
  | nil => simp [collectList]
  | cons item rest ih => simp [collectList, ih]

theorem mem_collectEntries_iff {types : Registry} {entries : List (String × Typed)} :
    query ∈ collectEntries types references entries ↔
      ∃ item ∈ entries.map Prod.snd, query ∈ collect types references item := by
  induction entries with
  | nil => simp [collectEntries]
  | cons entry rest ih =>
      obtain ⟨key, item⟩ := entry
      simp [collectEntries, ih]

def collectArg (types : Registry) (references : References) (arg : Typed) (param : Ty) :
    List Query :=
  match arg.reference?, param.template? with
  | some reference, some query => ofReference types references reference (some query)
  | _, _ => collect types references arg

theorem mem_collectArgs_iff {types : Registry} {args : List Typed} {params : List Ty} :
    query ∈ collectArgs types references args params ↔
      ∃ pair ∈ args.zip params, query ∈ collectArg types references pair.1 pair.2 := by
  induction args generalizing params with
  | nil => simp [collectArgs]
  | cons arg args ih =>
      cases params with
      | nil => simp [collectArgs]
      | cons param params =>
          rw [collectArgs, List.mem_append, ih]
          simp only [List.zip_cons_cons, List.exists_mem_cons_iff]
          rfl

theorem Requires.plain (requires : Requires typing references roots typed query) :
    query.Plain := by
  obtain ⟨index, below?, _, member, templated⟩ := requires
  refine plain_ofReference ?_ query member
  intro below same
  obtain ⟨_, _, _, _, param, _, _, _, asked, _⟩ := (templated below same).argument
  exact Ty.plain_template param below asked

/-! Where required paths lead -/

def Visible (options : List String) (path : List String) : Prop :=
  ∀ name, path.head? = some name → name ∉ options

theorem visible_append_iff {options path rest : List String} (begun : path ≠ []) :
    Visible options (path ++ rest) ↔ Visible options path := by
  obtain ⟨first, others, rfl⟩ := List.exists_cons_of_ne_nil begun
  rfl

def FlatRoots (types : Registry) (roots : List (String × Ty)) (options : List String) : Prop :=
  ∀ name root, name ∉ options → roots.reverse.lookup name = some root → types.Flat root

theorem FlatRoots.visible {types : Registry} {options path : List String}
    (flat : FlatRoots types roots options) (visible : Visible options path) :
    FlatRoot types roots path :=
  fun name root first found => flat name root (visible name first) found

/-- What templates select as fields of arguments are no objects. -/
def ScalarLeaves (types : Registry) (references : References) (typed : Typed) : Prop :=
  ∀ function params args, typed.Contains (.call function params args) →
    ∀ pair ∈ args.zip params, ∀ index below path ty, pair.1.reference? = some index →
      pair.2.template? = some below → below.Selects false path →
      types.Walks (references.ty index) path ty → ¬ types.HoldsObjects ty

structure Arrives (types : Registry) (references : References) (roots : List (String × Ty))
    (typed : Typed) (link : Bool) (path : List String) (ty : Ty) : Prop where
  leads : Typing.Leads types roots path ty
  objects : link = true → types.HoldsObjects ty
  data : link = false → ScalarLeaves types references typed → ¬ types.HoldsObjects ty

theorem Templated.walks {below : Query} (templated : Templated typing references typed index below)
    {link : Bool} {path : List String}
    (selects : below.Selects link path) :
    ∃ last, typing.types.Walks (references.ty index) path last ∧
      (link = true → typing.types.HoldsObjects last) ∧
      (link = false → ScalarLeaves typing.types references typed →
        ¬ typing.types.HoldsObjects last) := by
  obtain ⟨function, params, args, arg, param, inside, member, own, asked, _, _, fits⟩ :=
    templated.argument
  simp only [Typing.fits, own] at fits
  obtain ⟨last, walks, objects⟩ :=
    Registry.walks_of_template selects (mapError_eq_ok_iff.mp fits) asked
  have onward : typing.types.Walks (references.ty index) path last := by
    cases walks with
    | nil => exact (Query.not_selects_nil selects).elim
    | cons reaches declared walks => exact .cons (reaches.ofResolved) declared walks
  refine ⟨last, onward, objects, ?_⟩
  rintro rfl scalar
  exact scalar function params args inside _ member index below path last own asked selects onward

theorem Requires.arrives {options : List String}
    (requires : Requires typing references roots typed query) (ordered : references.Ordered)
    (flat : FlatRoots typing.types roots options) {link : Bool}
    {path : List String} (selects : query.Selects link path) (visible : Visible options path) :
    ∃ ty, Arrives typing.types references roots typed link path ty := by
  obtain ⟨index, below?, tracked, member, templated⟩ := requires
  have same := head_of_ofReference tracked ordered member selects
  have visibleIndex : Visible options (references.path index) :=
    fun name first => visible name (same ▸ first)
  have flatRoot := flat.visible visibleIndex
  obtain ⟨outer, leads, peels⟩ := tracked.reached ordered
  have linked := (flat_of_tracked tracked ordered flatRoot).isLink_iff
  rw [ofReference_eq tracked ordered flatRoot, List.mem_singleton] at member
  have begun := tracked.path_ne_nil ordered
  generalize references.path index = whole at leads member begun
  -- the path of the reference ends in a link or in a field, by its type; before that are links
  cases isLink : typing.types.isLink (references.ty index) with
  | true =>
      have objects := peels.holdsObjects_iff.mpr (linked.mp isLink)
      simp only [isLink, if_true] at member
      subst member
      rcases Query.selects_nest_iff.mp selects with ⟨rfl, started, rest, rfl⟩ | ⟨rest, rfl, below⟩
      · by_cases last : rest = []
        · subst last
          exact ⟨outer, by simpa using leads, fun _ => objects, by simp⟩
        · obtain ⟨mid, leadsMid, objectsMid⟩ := leads.before started last
          exact ⟨mid, leadsMid, fun _ => objectsMid, by simp⟩
      · cases below? with
        | none => exact (Query.not_selects_empty below).elim
        | some asked =>
            obtain ⟨last, walks, objectsLast, data⟩ := (templated asked rfl).walks below
            have more : rest ≠ [] := by
              rintro rfl
              exact Query.not_selects_nil below
            obtain ⟨first, others, rfl⟩ := List.exists_cons_of_ne_nil more
            exact ⟨last, leads.extend (walks.peel peels), objectsLast, data⟩
  | false =>
      have data : ¬ typing.types.HoldsObjects outer := by
        intro objects
        have := linked.mpr (peels.holdsObjects_iff.mp objects)
        simp [isLink] at this
      simp only [isLink, Bool.false_eq_true, if_false] at member
      obtain ⟨init, last, rfl⟩ := (List.eq_nil_or_concat' whole).resolve_left begun
      rw [Query.pointing_append] at member
      subst member
      rcases Query.selects_nest_iff.mp selects with ⟨rfl, started, rest, rfl⟩ | ⟨rest, rfl, below⟩
      · rw [List.append_assoc] at leads
        obtain ⟨mid, leadsMid, objectsMid⟩ := leads.before started (by simp)
        exact ⟨mid, leadsMid, fun _ => objectsMid, by simp⟩
      · obtain ⟨rfl, rfl⟩ := Query.selects_field_iff.mp below
        exact ⟨outer, leads, by simp, fun _ _ => data⟩

end GraphQuery.Requirement
