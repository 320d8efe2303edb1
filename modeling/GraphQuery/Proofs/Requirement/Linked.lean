import GraphQuery.Proofs.Query.Union
import GraphQuery.Proofs.Requirement.Sources

/-!
What a reference requires, however its types are nested: the path of every label on the way back to
the root, as long as all before that label is linked. What is asked for below the reference is
required only if the whole way is linked. Whether it is depends on its labels alone.
-/

namespace GraphQuery

namespace Query

variable {name : String} {path : List String} {query : Query}

theorem has_link_iff : (ofSelections [.link (.named name) query]).Has path ↔
    path = [name] ∨ ∃ rest, path = name :: rest ∧ query.Has rest := by
  simp only [Has, selects_link_iff, Bool.exists_bool]
  grind

theorem has_field_iff : (ofSelections [.field (.named name)]).Has path ↔ path = [name] := by
  simp [Has, selects_field_iff]

end Query

namespace References

variable {references : References} {index earlier back : Nat} {reference : Reference}

theorem refersBack_iff_of_root (entry : references.get? index = some reference)
    (root : reference.back? = none) : references.RefersBack index earlier ↔ earlier = index := by
  constructor
  · intro refers
    cases refers with
    | refl => rfl
    | step found further _ =>
        obtain rfl := Option.some.inj (entry.symm.trans found)
        simp [root] at further
  · rintro rfl
    exact .refl

theorem refersBack_iff_of_back (entry : references.get? index = some reference)
    (refersOn : reference.back? = some back) :
    references.RefersBack index earlier ↔ earlier = index ∨ references.RefersBack back earlier := by
  constructor
  · intro refers
    cases refers with
    | refl => exact .inl rfl
    | step found further onward =>
        obtain rfl := Option.some.inj (entry.symm.trans found)
        obtain rfl := Option.some.inj (refersOn.symm.trans further)
        exact .inr onward
  · rintro (rfl | onward)
    · exact .refl
    · exact .step entry refersOn onward

end References

namespace Registry

variable {types : Registry} {ty inside : Ty}

theorem Linkable.item (linkable : types.Linkable ty)
    (optional : types.resolve ty = .optional inside) : types.Linkable inside := by
  rcases linkable with (((⟨fields, same⟩ | ⟨kind, name, same⟩) | ⟨item, same, object⟩) |
    ⟨item, same, _⟩) | ⟨item, same, holds⟩
  · simp [optional] at same
  · simp [optional] at same
  · obtain rfl := Ty.optional.inj (optional.symm.trans same)
    exact .inl (.inl (.inl object))
  · simp [optional] at same
  · obtain rfl := Ty.optional.inj (optional.symm.trans same)
    exact .inl holds

theorem Linkable.element (linkable : types.Linkable ty)
    (sequence : types.resolve ty = .sequence inside) : types.Linkable inside := by
  rcases linkable with (((⟨fields, same⟩ | ⟨kind, name, same⟩) | ⟨item, same, _⟩) |
    ⟨item, same, holds⟩) | ⟨item, same, _⟩
  · simp [sequence] at same
  · simp [sequence] at same
  · simp [sequence] at same
  · obtain rfl := Ty.sequence.inj (sequence.symm.trans same)
    exact .inl (.inl holds)
  · simp [sequence] at same

end Registry

namespace Typing

variable {typing : Typing} {references : References} {roots : List (String × Ty)}
  {index earlier : Nat}

theorem Tracked.of_refersBack (tracked : Tracked typing references roots index)
    (refers : references.RefersBack index earlier) : Tracked typing references roots earlier := by
  induction tracked with
  | root entry found =>
      obtain rfl := (References.refersBack_iff_of_root entry rfl).mp refers
      exact .root entry found
  | field entry record declared tracked ih =>
      rcases (References.refersBack_iff_of_back entry rfl).mp refers with rfl | refers
      · exact .field entry record declared tracked
      · exact ih refers
  | item entry sequence tracked ih =>
      rcases (References.refersBack_iff_of_back entry rfl).mp refers with rfl | refers
      · exact .item entry sequence tracked
      · exact ih refers
  | present entry optional tracked ih =>
      rcases (References.refersBack_iff_of_back entry rfl).mp refers with rfl | refers
      · exact .present entry optional tracked
      · exact ih refers

end Typing

namespace Requirement

def Linked (types : Registry) (references : References) (index : Nat) : Prop :=
  ∀ earlier, references.RefersBack index earlier → types.Linkable (references.ty earlier)

/-- On the way back from a reference a label stands at the end of a path, and all before that label
is linked. -/
def Fetched (types : Registry) (references : References) (index : Nat) (path : List String) :
    Prop :=
  ∃ earlier back? label ty, references.RefersBack index earlier ∧
    references.get? earlier = some ⟨back?, some label, ty⟩ ∧ references.path earlier = path ∧
    ∀ back, back? = some back → Linked types references back

variable {typing : Typing} {types : Registry} {references : References}
  {roots : List (String × Ty)} {index back : Nat} {label? : Option String} {back? : Option Nat}
  {label name : String} {ty : Ty} {path rest : List String} {below? : Option Query} {above : Query}

theorem linked_iff_of_root (entry : references.get? index = some ⟨none, label?, ty⟩) :
    Linked types references index ↔ types.Linkable ty := by
  simp only [Linked, References.refersBack_iff_of_root entry rfl, forall_eq,
    References.ty_of_get? entry]

theorem linked_iff_of_back (entry : references.get? index = some ⟨some back, label?, ty⟩) :
    Linked types references index ↔ types.Linkable ty ∧ Linked types references back := by
  simp only [Linked, References.refersBack_iff_of_back entry rfl, forall_eq_or_imp,
    References.ty_of_get? entry]

theorem fetched_iff_of_root (entry : references.get? index = some ⟨none, some name, ty⟩) :
    Fetched types references index path ↔ path = references.path index := by
  simp only [Fetched, References.refersBack_iff_of_root entry rfl]
  constructor
  · rintro ⟨_, _, _, _, rfl, _, rfl, _⟩
    rfl
  · rintro rfl
    exact ⟨index, _, _, _, rfl, entry, rfl, by simp⟩

theorem fetched_iff_of_back (entry : references.get? index = some ⟨some back, label?, ty⟩) :
    Fetched types references index path ↔
      (label?.isSome = true ∧ path = references.path index ∧ Linked types references back) ∨
        Fetched types references back path := by
  constructor
  · rintro ⟨earlier, _, _, _, refers, found, rfl, linked⟩
    rcases (References.refersBack_iff_of_back entry rfl).mp refers with rfl | onward
    · have same := entry.symm.trans found
      simp only [Option.some.injEq, Reference.mk.injEq] at same
      obtain ⟨refersOn, rfl, _⟩ := same
      exact .inl ⟨rfl, rfl, linked back refersOn.symm⟩
    · exact .inr ⟨earlier, _, _, _, onward, found, rfl, linked⟩
  · rintro (⟨labelled, rfl, linked⟩ | ⟨earlier, _, _, _, refers, found, same, linked⟩)
    · obtain ⟨label, rfl⟩ := Option.isSome_iff_exists.mp labelled
      refine ⟨index, _, _, _, .refl, entry, rfl, ?_⟩
      rintro _ refersOn
      exact Option.some.inj refersOn ▸ linked
    · exact ⟨earlier, _, _, _, .step entry rfl refers, found, same, linked⟩

/-! What one step of the way makes of what is below it -/

theorem has_wrap_label_iff {backTo? : Option Nat} :
    (∃ above, wrap types below? ⟨backTo?, some name, ty⟩ = some above ∧ above.Has rest) ↔
      rest = [name] ∨ types.Linkable ty ∧
        ∃ below more, below? = some below ∧ below.Has more ∧ rest = name :: more := by
  rw [← Registry.isLink_iff_linkable]
  cases linked : types.isLink ty with
  | true =>
      simp only [wrap, linked, Option.some.injEq, exists_eq_left', Query.has_link_iff, true_and]
      cases below? with
      | none => simp [Query.Has, Query.not_selects_empty]
      | some below => simp [and_comm]
  | false => simp [wrap, linked, Query.has_field_iff]

theorem wrap_unlabelled_eq_some_iff {backTo? : Option Nat} :
    wrap types below? ⟨backTo?, none, ty⟩ = some above ↔
      types.Linkable ty ∧ below? = some above := by
  rw [← Registry.isLink_iff_linkable]
  cases linked : types.isLink ty <;> simp [wrap, linked]

theorem ofReference_of_back (ordered : references.Ordered)
    (entry : references.get? index = some ⟨some back, label?, ty⟩) :
    ofReference types references index below? =
      ofReference types references back (wrap types below? ⟨some back, label?, ty⟩) := by
  simp only [ofReference, References.chain_of_back ordered entry rfl, List.foldl_cons]

/-- What a reference requires, and what is required below it. -/
theorem has_ofReference_iff (tracked : typing.Tracked references roots index)
    (ordered : references.Ordered) :
    (∃ query ∈ ofReference types references index below?, query.Has path) ↔
      Fetched types references index path ∨ ∃ below rest, below? = some below ∧
        Linked types references index ∧ below.Has rest ∧ path = references.path index ++ rest := by
  -- a step without a label neither ends a path nor lengthens one
  have unlabelled : ∀ {index back : Nat} {ty : Ty} {below? : Option Query},
      references.get? index = some ⟨some back, none, ty⟩ →
      (∀ below?, (∃ query ∈ ofReference types references back below?, query.Has path) ↔
        Fetched types references back path ∨ ∃ below rest, below? = some below ∧
          Linked types references back ∧ below.Has rest ∧
            path = references.path back ++ rest) →
      ((∃ query ∈ ofReference types references index below?, query.Has path) ↔
        Fetched types references index path ∨ ∃ below rest, below? = some below ∧
          Linked types references index ∧ below.Has rest ∧
            path = references.path index ++ rest) := by
    intro index back ty below? entry ih
    rw [ofReference_of_back ordered entry, ih, fetched_iff_of_back entry, linked_iff_of_back entry,
      References.path_of_back ordered entry rfl]
    simp only [wrap_unlabelled_eq_some_iff, Option.isSome_none, Bool.false_eq_true, false_and,
      false_or, Option.toList_none, List.append_nil]
    refine or_congr_right (exists_congr fun below => exists_congr fun rest => ?_)
    tauto
  induction tracked generalizing below? with
  | @root index name ty entry found =>
      have whole : ofReference types references index below? =
          (wrap types below? ⟨none, some name, ty⟩).toList := by
        simp only [ofReference, References.chain_of_root entry rfl, List.foldl_cons,
          List.foldl_nil]
      simp only [whole, Option.mem_toList, fetched_iff_of_root entry, linked_iff_of_root entry,
        References.path_of_root entry rfl, has_wrap_label_iff, Option.toList_some,
        List.cons_append, List.nil_append]
      refine or_congr_right ⟨?_, ?_⟩
      · rintro ⟨linkable, below, more, asked, has, same⟩
        exact ⟨below, more, asked, linkable, has, same⟩
      · rintro ⟨below, more, asked, linkable, has, same⟩
        exact ⟨linkable, below, more, asked, has, same⟩
  | @field index back name fields ty entry record declared tracked ih =>
      rw [ofReference_of_back ordered entry, fetched_iff_of_back entry,
        linked_iff_of_back entry, References.path_of_back ordered entry rfl]
      refine ih.trans ?_
      constructor
      · rintro (before | ⟨above, rest, made, linked, has, rfl⟩)
        · exact .inl (.inr before)
        · rcases has_wrap_label_iff.mp ⟨above, made, has⟩ with
            rfl | ⟨linkable, below, more, asked, hasMore, rfl⟩
          · exact .inl (.inl ⟨rfl, rfl, linked⟩)
          · exact .inr ⟨below, more, asked, ⟨linkable, linked⟩, hasMore, by simp⟩
      · rintro ((⟨_, rfl, linked⟩ | before) | ⟨below, more, asked, ⟨linkable, linked⟩, has, rfl⟩)
        · obtain ⟨above, made, hasName⟩ := has_wrap_label_iff.mpr (.inl rfl)
          exact .inr ⟨above, [name], made, linked, hasName, rfl⟩
        · exact .inl before
        · obtain ⟨above, made, hasMore⟩ :=
            has_wrap_label_iff.mpr (.inr ⟨linkable, below, more, asked, has, rfl⟩)
          exact .inr ⟨above, name :: more, made, linked, hasMore, by simp⟩
  | item entry sequence tracked ih => exact unlabelled entry fun below? => ih
  | present entry optional tracked ih => exact unlabelled entry fun below? => ih

/-! What is linked by its labels -/

def LinkedAlong (types : Registry) (roots : List (String × Ty)) (path : List String) : Prop :=
  ∀ before, before ≠ [] → before <+: path → ∀ ty, Typing.Leads types roots before ty →
    types.Linkable ty

theorem linkedAlong_nil : LinkedAlong types roots [] :=
  fun _ some before => (some (List.prefix_nil.mp before)).elim

theorem linkedAlong_append_iff (leads : Typing.Leads types roots (path ++ [name]) ty) :
    LinkedAlong types roots (path ++ [name]) ↔
      types.Linkable ty ∧ LinkedAlong types roots path := by
  constructor
  · intro along
    refine ⟨along _ (by simp) (List.prefix_refl _) ty leads, ?_⟩
    exact fun before some further => along before some (further.trans (List.prefix_append _ _))
  · rintro ⟨linkable, along⟩ before some further other leadsToo
    rcases List.prefix_concat_iff.mp further with rfl | further
    · exact leads.unique leadsToo ▸ linkable
    · exact along before some further other leadsToo

/-- Optionals and sequences that are taken off add nothing: the way is linked if its labels are. -/
theorem linked_iff (tracked : typing.Tracked references roots index)
    (ordered : references.Ordered) :
    Linked typing.types references index ↔
      LinkedAlong typing.types roots (references.path index) := by
  induction tracked with
  | @root index name ty entry found =>
      have leads : Typing.Leads typing.types roots [name] ty := ⟨name, [], ty, rfl, found, .nil⟩
      rw [linked_iff_of_root entry, References.path_of_root entry rfl]
      constructor
      · intro linkable before some further other leadsToo
        obtain rfl : before = [name] := (List.prefix_concat_iff.mp further).resolve_right
          fun none => some (List.prefix_nil.mp none)
        exact leads.unique leadsToo ▸ linkable
      · exact fun along => along [name] (by simp) (List.prefix_refl _) ty leads
  | @field index back name fields ty entry record declared tracked ih =>
      obtain ⟨outer, leads, peels⟩ := tracked.reached ordered
      have onward := leads.extend (.cons (peels.reaches (.record record)) declared .nil)
      rw [linked_iff_of_back entry, ih, References.path_of_back ordered entry rfl]
      exact (linkedAlong_append_iff onward).symm
  | @item index back ty entry sequence tracked ih =>
      rw [linked_iff_of_back entry, References.path_of_back ordered entry rfl]
      simp only [Option.toList_none, List.append_nil, ← ih]
      exact ⟨And.right, fun linked => ⟨(linked back .refl).element sequence, linked⟩⟩
  | @present index back ty entry optional tracked ih =>
      rw [linked_iff_of_back entry, References.path_of_back ordered entry rfl]
      simp only [Option.toList_none, List.append_nil, ← ih]
      exact ⟨And.right, fun linked => ⟨(linked back .refl).item optional, linked⟩⟩

theorem linked_before_iff (tracked : typing.Tracked references roots index)
    (ordered : references.Ordered)
    (entry : references.get? index = some ⟨back?, some label, ty⟩)
    (ends : references.path index = path ++ [name]) :
    (∀ back, back? = some back → Linked typing.types references back) ↔
      LinkedAlong typing.types roots path := by
  cases refers : back? with
  | none =>
      subst refers
      rw [References.path_of_root entry rfl] at ends
      obtain ⟨rfl, _⟩ := List.append_inj' (show [] ++ [label] = path ++ [name] from ends) rfl
      simp [linkedAlong_nil]
  | some back =>
      subst refers
      rw [References.path_of_back ordered entry rfl] at ends
      obtain ⟨rfl, _⟩ := List.append_inj' ends rfl
      simp [linked_iff (tracked.of_refersBack (.step entry rfl .refl)) ordered]

/-- A path is fetched where its last label stands, if the labels before that are linked. -/
theorem fetched_append_iff (tracked : typing.Tracked references roots index)
    (ordered : references.Ordered) : Fetched typing.types references index (path ++ [name]) ↔
      LinkedAlong typing.types roots path ∧ ∃ earlier back? label ty,
        references.RefersBack index earlier ∧
        references.get? earlier = some ⟨back?, some label, ty⟩ ∧
        references.path earlier = path ++ [name] := by
  constructor
  · rintro ⟨earlier, back?, label, ty, refers, entry, ends, linked⟩
    have before := linked_before_iff (tracked.of_refersBack refers) ordered entry ends
    exact ⟨before.mp linked, earlier, back?, label, ty, refers, entry, ends⟩
  · rintro ⟨along, earlier, back?, label, ty, refers, entry, ends⟩
    have before := linked_before_iff (tracked.of_refersBack refers) ordered entry ends
    exact ⟨earlier, back?, label, ty, refers, entry, ends, before.mpr along⟩

/-! Where required paths lead, however types are nested -/

theorem Fetched.tracked (fetched : Fetched types references index path)
    (tracked : typing.Tracked references roots index) :
    ∃ earlier, typing.Tracked references roots earlier ∧ references.path earlier = path := by
  obtain ⟨earlier, _, _, _, refers, _, same, _⟩ := fetched
  exact ⟨earlier, tracked.of_refersBack refers, same⟩

theorem Requires.leads {typed : Typed} {query : Query}
    (requires : Requires typing references roots typed query) (ordered : references.Ordered)
    (has : query.Has path) : ∃ ty, Typing.Leads typing.types roots path ty := by
  obtain ⟨index, below?, tracked, made, templated⟩ := requires
  rcases (has_ofReference_iff tracked ordered).mp ⟨query, made, has⟩ with
    fetched | ⟨below, rest, rfl, _, ⟨link, selects⟩, rfl⟩
  · obtain ⟨earlier, trackedToo, rfl⟩ := fetched.tracked tracked
    obtain ⟨ty, leads, _⟩ := trackedToo.reached ordered
    exact ⟨ty, leads⟩
  · obtain ⟨outer, leads, peels⟩ := tracked.reached ordered
    obtain ⟨last, walks, _⟩ := (templated below rfl).walks selects
    cases walks with
    | nil => exact (Query.not_selects_nil selects).elim
    | cons reaches declared walks =>
        exact ⟨last, leads.extend (.cons (peels.reaches reaches) declared walks)⟩

end Requirement

end GraphQuery
