import GraphQuery.Proofs.Query.Union
import GraphQuery.Proofs.Requirement.Sources
import GraphQuery.Proofs.Ty.Flat

/-!
The requirements of a checked expression are exact: the paths that its references and templates read
are required, with links where objects are linked, and nothing else is.
-/

namespace GraphQuery

namespace Query

variable {link : Bool} {path rest sought : List String} {query : Query}

theorem Has.before (has : query.Has (path ++ rest)) (begun : path ≠ []) : query.Has path := by
  obtain ⟨link, selects⟩ := has
  by_cases more : rest = []
  · subst more
    exact ⟨link, by simpa using selects⟩
  · exact ⟨true, selects.before begun more⟩

theorem selects_pointing_iff (begun : path ≠ []) : (pointing path).Selects link sought ↔
    sought ≠ [] ∧ sought <+: path ∧ (link = true ↔ sought ≠ path) := by
  obtain ⟨init, last, rfl⟩ := (List.eq_nil_or_concat' path).resolve_left begun
  rw [pointing_append, selects_nest_iff, List.prefix_concat_iff]
  have shorter : sought <+: init → sought ≠ init ++ [last] := by
    rintro before rfl
    have longer := before.length_le
    rw [List.length_append, List.length_singleton] at longer
    omega
  constructor
  · rintro (⟨rfl, some, before⟩ | ⟨rest, rfl, below⟩)
    · exact ⟨some, .inr before, by simpa using shorter before⟩
    · obtain ⟨rfl, rfl⟩ := selects_field_iff.mp below
      exact ⟨by simp, .inl rfl, by simp⟩
  · rintro ⟨some, whole | before, kind⟩
    · subst whole
      exact .inr ⟨[last], rfl, selects_field_iff.mpr ⟨by simpa using kind, rfl⟩⟩
    · exact .inl ⟨kind.mpr (shorter before), some, before⟩

end Query

namespace Requirement

variable {typing : Typing} {references : References} {roots : List (String × Ty)} {scope : Scope}
  {typed : Typed} {index : Nat} {below : Query} {below? : Option Query} {path : List String}

def LinksAt (types : Registry) (references : References) (index : Nat) (path : List String) :
    Prop :=
  ∃ earlier back? label ty, references.RefersBack index earlier ∧
    references.get? earlier = some ⟨back?, some label, ty⟩ ∧ references.path earlier = path ∧
    types.Linkable ty

theorem linksAt_iff_of_root {types : Registry} {label : String} {ty : Ty}
    (entry : references.get? index = some ⟨none, some label, ty⟩) :
    LinksAt types references index path ↔ path = references.path index ∧ types.Linkable ty := by
  constructor
  · rintro ⟨_, _, _, _, refers, entryToo, rfl, linkable⟩
    cases refers with
    | refl =>
        have same := entry.symm.trans entryToo
        simp only [Option.some.injEq, Reference.mk.injEq] at same
        exact ⟨rfl, same.2.2 ▸ linkable⟩
    | step found back _ =>
        obtain rfl := Option.some.inj (entry.symm.trans found)
        cases back
  · rintro ⟨rfl, linkable⟩
    exact ⟨index, _, _, _, .refl, entry, rfl, linkable⟩

theorem linksAt_iff_of_back {types : Registry} {back : Nat} {label? : Option String} {ty : Ty}
    (entry : references.get? index = some ⟨some back, label?, ty⟩) :
    LinksAt types references index path ↔
      (label?.isSome = true ∧ path = references.path index ∧ types.Linkable ty) ∨
        LinksAt types references back path := by
  constructor
  · rintro ⟨earlier, _, _, _, refers, entryToo, rfl, linkable⟩
    cases refers with
    | refl =>
        have same := entry.symm.trans entryToo
        simp only [Option.some.injEq, Reference.mk.injEq] at same
        obtain ⟨_, rfl, rfl⟩ := same
        exact .inl ⟨rfl, rfl, linkable⟩
    | step found refersOn onward =>
        obtain rfl := Option.some.inj (entry.symm.trans found)
        obtain rfl := Option.some.inj refersOn
        exact .inr ⟨earlier, _, _, _, onward, entryToo, rfl, linkable⟩
  · rintro (⟨labelled, rfl, linkable⟩ | ⟨earlier, _, _, _, refers, entryToo, same, linkable⟩)
    · obtain ⟨label, rfl⟩ := Option.isSome_iff_exists.mp labelled
      exact ⟨index, _, _, _, .refl, entry, rfl, linkable⟩
    · exact ⟨earlier, _, _, _, .step entry rfl refers, entryToo, same, linkable⟩

/-- Among the beginnings of a reference's path, all but the last have linked objects, and the last
has them by the type of the reference. -/
theorem linksAt_iff (tracked : typing.Tracked references roots index)
    (ordered : references.Ordered) (flat : FlatRoot typing.types roots (references.path index)) :
    LinksAt typing.types references index path ↔ path ≠ [] ∧ path <+: references.path index ∧
      (path = references.path index → typing.types.isLink (references.ty index) = true) := by
  -- only steps with a label count, and the type is linked before and after one without
  have unlabelled : ∀ {index back : Nat} {ty : Ty},
      references.get? index = some ⟨some back, none, ty⟩ →
      typing.types.isLink (references.ty back) = typing.types.isLink ty →
      (LinksAt typing.types references back path ↔ path ≠ [] ∧ path <+: references.path back ∧
        (path = references.path back → typing.types.isLink (references.ty back) = true)) →
      (LinksAt typing.types references index path ↔ path ≠ [] ∧ path <+: references.path index ∧
        (path = references.path index → typing.types.isLink (references.ty index) = true)) := by
    intro index back ty entry same whole
    rw [linksAt_iff_of_back entry, References.path_of_back ordered entry rfl,
      References.ty_of_get? entry, ← same]
    simpa using whole
  induction tracked with
  | @root index name ty entry found =>
      rw [linksAt_iff_of_root entry, References.path_of_root entry rfl, References.ty_of_get? entry,
        Registry.isLink_iff_linkable]
      constructor
      · rintro ⟨rfl, linkable⟩
        exact ⟨by simp, List.prefix_refl _, fun _ => linkable⟩
      · rintro ⟨some, before, linkable⟩
        obtain rfl : path = [name] := (List.prefix_concat_iff.mp before).resolve_right fun none =>
          some (List.prefix_nil.mp none)
        exact ⟨rfl, linkable rfl⟩
  | @field index back name fields ty entry record declared tracked ih =>
      have flatBack := flat.ofBack ordered entry rfl (tracked.path_ne_nil ordered)
      have linkBack : typing.types.isLink (references.ty back) = true :=
        (flat_of_tracked tracked ordered flatBack).isLink_iff.mpr (.record record)
      have whole : _ ↔ _ := ih flatBack
      rw [linksAt_iff_of_back entry, ← Registry.isLink_iff_linkable, whole,
        References.path_of_back ordered entry rfl, References.ty_of_get? entry]
      simp only [Option.toList_some, List.prefix_concat_iff, linkBack, implies_true, and_true,
        Option.isSome_some, true_and]
      constructor
      · rintro (⟨rfl, linkable⟩ | ⟨some, before⟩)
        · exact ⟨by simp, .inl rfl, fun _ => linkable⟩
        · refine ⟨some, .inr before, ?_⟩
          rintro rfl
          have longer := before.length_le
          rw [List.length_append, List.length_singleton] at longer
          omega
      · rintro ⟨some, whole | before, linkable⟩
        · exact .inl ⟨whole, linkable whole⟩
        · exact .inr ⟨some, before⟩
  | @item index back ty entry sequence tracked ih =>
      have flatBack := flat.ofBack ordered entry rfl (tracked.path_ne_nil ordered)
      have flatIndex := flat_of_tracked (.item entry sequence tracked) ordered flat
      rw [References.ty_of_get? entry] at flatIndex
      exact unlabelled entry ((flat_of_tracked tracked ordered flatBack).isLink_eq flatIndex
        (Registry.holdsObjects_sequence_iff sequence)) (ih flatBack)
  | @present index back ty entry optional tracked ih =>
      have flatBack := flat.ofBack ordered entry rfl (tracked.path_ne_nil ordered)
      have flatIndex := flat_of_tracked (.present entry optional tracked) ordered flat
      rw [References.ty_of_get? entry] at flatIndex
      exact unlabelled entry ((flat_of_tracked tracked ordered flatBack).isLink_eq flatIndex
        (Registry.holdsObjects_optional_iff optional)) (ih flatBack)

/-! What one reference requires -/

section Reference

variable (tracked : typing.Tracked references roots index) (ordered : references.Ordered)
  (flat : FlatRoot typing.types roots (references.path index))
  (linked : ∀ below, below? = some below → typing.types.isLink (references.ty index) = true)

include tracked ordered flat linked

theorem ofReference_selects_iff {link : Bool} :
    (∃ query ∈ ofReference typing.types references index below?, query.Selects link path) ↔
      (path ≠ [] ∧ path <+: references.path index ∧ (link = true ↔ (path = references.path index →
        typing.types.isLink (references.ty index) = true))) ∨
      ∃ below rest, below? = some below ∧ below.Selects link rest ∧
        path = references.path index ++ rest := by
  rw [ofReference_eq tracked ordered flat]
  simp only [List.mem_singleton, exists_eq_left]
  cases isLink : typing.types.isLink (references.ty index) with
  | true =>
      rw [if_pos rfl, Query.selects_nest_iff]
      simp only [implies_true, iff_true]
      refine or_congr ⟨fun ⟨kind, begun, before⟩ => ⟨begun, before, kind⟩,
        fun ⟨begun, before, kind⟩ => ⟨kind, begun, before⟩⟩ ?_
      cases below? with
      | none => simp [Query.not_selects_empty]
      | some below => simp [and_comm]
  | false =>
      obtain rfl : below? = none := by
        cases below? with
        | none => rfl
        | some below => simp [linked below rfl] at isLink
      simp [Query.selects_pointing_iff (tracked.path_ne_nil ordered)]

theorem ofReference_links_iff :
    (∃ query ∈ ofReference typing.types references index below?, query.Selects true path) ↔
      LinksAt typing.types references index path ∨ ∃ below rest, below? = some below ∧
        below.Selects true rest ∧ path = references.path index ++ rest := by
  rw [ofReference_selects_iff tracked ordered flat linked, linksAt_iff tracked ordered flat]
  simp

theorem ofReference_has_iff :
    (∃ query ∈ ofReference typing.types references index below?, query.Has path) ↔
      (path ≠ [] ∧ path <+: references.path index) ∨ ∃ below rest, below? = some below ∧
        below.Has rest ∧ path = references.path index ++ rest := by
  have selects_iff := fun link : Bool =>
    @ofReference_selects_iff typing references roots index below? path tracked ordered flat linked
      link
  constructor
  · rintro ⟨query, member, link, selects⟩
    rcases (selects_iff link).mp ⟨query, member, selects⟩ with
      ⟨begun, before, _⟩ | ⟨below, rest, same, selectsBelow, whole⟩
    · exact .inl ⟨begun, before⟩
    · exact .inr ⟨below, rest, same, ⟨link, selectsBelow⟩, whole⟩
  · rintro (⟨begun, before⟩ | ⟨below, rest, same, ⟨link, selects⟩, whole⟩)
    · by_cases kind : path = references.path index → typing.types.isLink (references.ty index) = true
      · obtain ⟨query, member, selects⟩ :=
          (selects_iff true).mpr (.inl ⟨begun, before, iff_of_true rfl kind⟩)
        exact ⟨query, member, true, selects⟩
      · obtain ⟨query, member, selects⟩ :=
          (selects_iff false).mpr (.inl ⟨begun, before, iff_of_false Bool.false_ne_true kind⟩)
        exact ⟨query, member, false, selects⟩
    · obtain ⟨query, member, selects⟩ :=
        (selects_iff link).mpr (.inr ⟨below, rest, same, selects, whole⟩)
      exact ⟨query, member, link, selects⟩

end Reference

end Requirement

namespace Typing.WellTyped

variable {typing : Typing} {references : References} {roots : List (String × Ty)} {scope : Scope}
  {typed : Typed} {index : Nat} {below : Query}

theorem holdsObjects_of_extends (wellTyped : typing.WellTyped references scope typed)
    (tracked : scope.Tracked typing references roots) (asks : typed.Extends index below) :
    typing.types.HoldsObjects (references.ty index) := by
  obtain ⟨function, params, args, arg, param, contains, given, own, asked⟩ := asks
  obtain ⟨inner, _, call⟩ := wellTyped.ofContained tracked contains
  cases call with
  | call _ _ _ fits _ =>
      obtain ⟨_, _, accepted⟩ := fits _ given
      simp only [Typing.fits, own] at accepted
      obtain ⟨fields, reaches, _⟩ :=
        Registry.checkWithin_template _ (mapError_eq_ok_iff.mp accepted) asked
      exact reaches.ofResolved.holdsObjects

end Typing.WellTyped

namespace Checked

variable {typing : Typing} {roots : List (String × Ty)} {expr : Expr} {checked : Checked}

/-- A path that a checked expression reads: that of a reference, or that of an argument and on along
a path of the template for its parameter. -/
inductive Reads (checked : Checked) : List String → Prop
  | reference {index} : checked.root.Points index → Reads checked (checked.references.path index)
  | template {index below rest} : checked.root.Extends index below → below.Has rest →
      Reads checked (checked.references.path index ++ rest)

inductive Links (types : Registry) (checked : Checked) : List String → Prop
  | reference {index path} : checked.root.Points index →
      Requirement.LinksAt types checked.references index path → Links types checked path
  | template {index below rest} : checked.root.Extends index below → below.Selects true rest →
      Links types checked (checked.references.path index ++ rest)

section Collected

variable {scope : Scope} {index : Nat} {below? : Option Query} {path : List String}
  (wellTyped : typing.WellTyped checked.references scope checked.root)
  (tracked : scope.Tracked typing checked.references roots) (ordered : checked.references.Ordered)
  (flat : ∀ path, Requirement.FlatRoot typing.types roots path)

include wellTyped tracked ordered flat

theorem isLink_of_sources (sources : checked.root.Sources index below?) :
    ∀ below, below? = some below → typing.types.isLink (checked.references.ty index) = true := by
  rintro below rfl
  have trackedIndex := wellTyped.tracked_of_points tracked sources.points
  have flatIndex := Requirement.flat_of_tracked trackedIndex ordered (flat _)
  exact flatIndex.isLink_iff.mpr (wellTyped.holdsObjects_of_extends tracked sources.extends)

theorem source_has_iff (sources : checked.root.Sources index below?) :
    (∃ query ∈ Requirement.ofReference typing.types checked.references index below?,
        query.Has path) ↔
      (path ≠ [] ∧ path <+: checked.references.path index) ∨ ∃ below rest, below? = some below ∧
        below.Has rest ∧ path = checked.references.path index ++ rest :=
  Requirement.ofReference_has_iff (wellTyped.tracked_of_points tracked sources.points) ordered
    (flat _) (isLink_of_sources wellTyped tracked ordered flat sources)

theorem source_links_iff (sources : checked.root.Sources index below?) :
    (∃ query ∈ Requirement.ofReference typing.types checked.references index below?,
        query.Selects true path) ↔
      Requirement.LinksAt typing.types checked.references index path ∨
        ∃ below rest, below? = some below ∧ below.Selects true rest ∧
          path = checked.references.path index ++ rest :=
  Requirement.ofReference_links_iff (wellTyped.tracked_of_points tracked sources.points) ordered
    (flat _) (isLink_of_sources wellTyped tracked ordered flat sources)

theorem collect_has_iff :
    (∃ query ∈ Requirement.collect typing.types checked.references checked.root, query.Has path) ↔
      path ≠ [] ∧ ∃ whole, checked.Reads whole ∧ path <+: whole := by
  simp only [Requirement.mem_collect_iff]
  constructor
  · rintro ⟨query, ⟨index, below?, sources, made⟩, has⟩
    rcases (source_has_iff wellTyped tracked ordered flat sources).mp ⟨query, made, has⟩ with
      ⟨begun, before⟩ | ⟨below, rest, rfl, hasRest, rfl⟩
    · exact ⟨begun, _, .reference sources.points, before⟩
    · have begun := (wellTyped.tracked_of_points tracked sources.points).path_ne_nil ordered
      exact ⟨by simp [begun], _, .template sources.extends hasRest, List.prefix_refl _⟩
  · rintro ⟨begun, whole, reads, before⟩
    cases reads with
    | @reference index points =>
        obtain ⟨outer, below?, sources, refers⟩ := wellTyped.sources_of_points tracked points
        obtain ⟨query, made, has⟩ := (source_has_iff wellTyped tracked ordered flat sources).mpr
          (.inl ⟨begun, before.trans (refers.path_prefix ordered)⟩)
        exact ⟨query, ⟨outer, below?, sources, made⟩, has⟩
    | @template index below rest asks hasRest =>
        have sources := wellTyped.sources_of_extends tracked asks
        have asked : (path ≠ [] ∧ path <+: checked.references.path index) ∨
            ∃ asked more, some below = some asked ∧ asked.Has more ∧
              path = checked.references.path index ++ more := by
          rcases List.prefix_or_prefix_of_prefix before (List.prefix_append _ rest) with
            short | ⟨more, rfl⟩
          · exact .inl ⟨begun, short⟩
          · by_cases last : more = []
            · exact .inl ⟨begun, by simp [last]⟩
            · obtain ⟨after, rfl⟩ := (List.prefix_append_right_inj _).mp before
              exact .inr ⟨below, more, rfl, hasRest.before last, rfl⟩
        obtain ⟨query, made, has⟩ :=
          (source_has_iff wellTyped tracked ordered flat sources).mpr asked
        exact ⟨query, ⟨index, some below, sources, made⟩, has⟩

theorem collect_links_iff :
    (∃ query ∈ Requirement.collect typing.types checked.references checked.root,
        query.Selects true path) ↔ checked.Links typing.types path := by
  simp only [Requirement.mem_collect_iff]
  constructor
  · rintro ⟨query, ⟨index, below?, sources, made⟩, selects⟩
    rcases (source_links_iff wellTyped tracked ordered flat sources).mp ⟨query, made, selects⟩ with
      links | ⟨below, rest, rfl, selectsRest, rfl⟩
    · exact .reference sources.points links
    · exact .template sources.extends selectsRest
  · intro links
    cases links with
    | @reference index _ points links =>
        obtain ⟨outer, below?, sources, refers⟩ := wellTyped.sources_of_points tracked points
        obtain ⟨earlier, back?, label, ty, onward, entry, same, linkable⟩ := links
        obtain ⟨query, made, selects⟩ :=
          (source_links_iff wellTyped tracked ordered flat sources).mpr
            (.inl ⟨earlier, back?, label, ty, refers.trans onward, entry, same, linkable⟩)
        exact ⟨query, ⟨outer, below?, sources, made⟩, selects⟩
    | @template index below rest asks selectsRest =>
        have sources := wellTyped.sources_of_extends tracked asks
        obtain ⟨query, made, selects⟩ :=
          (source_links_iff wellTyped tracked ordered flat sources).mpr
            (.inr ⟨below, rest, rfl, selectsRest, rfl⟩)
        exact ⟨query, ⟨index, some below, sources, made⟩, selects⟩

end Collected

/-- The requirements of a checked expression are exact. Where no root nests sequences or optionals
directly, a path is required when it begins a path that the expression reads, and as a link when
objects are linked there; a label is selected once on each level. -/
theorem requirements_exact (accepted : typing.check roots expr = .ok checked)
    (flat : ∀ root ∈ roots, typing.types.Flat root.2) :
    (checked.requirements typing.types).Distinct ∧
      (∀ path, (checked.requirements typing.types).Has path ↔
        path ≠ [] ∧ ∃ whole, checked.Reads whole ∧ path <+: whole) ∧
      (∀ path, (checked.requirements typing.types).Selects true path ↔
        checked.Links typing.types path) := by
  obtain ⟨scope, binds, wellTyped⟩ := Typing.check_sound accepted
  have tracked : scope.Tracked typing checked.references roots := .ofRoots binds
  have ordered := binds.ordered
  have flatRoots : ∀ path, Requirement.FlatRoot typing.types roots path := by
    intro path name root _ found
    obtain ⟨before, after, same, _⟩ := List.lookup_eq_some_iff.mp found
    exact flat (name, root) (List.mem_reverse.mp (by simp [same]))
  have merges : Requirement.Merges
      (Requirement.collect typing.types checked.references checked.root)
      (checked.requirements typing.types) :=
    Requirement.mergeRequirements_merges fun query member =>
      (Requirement.requires_of_mem_collect wellTyped tracked member).plain
  refine ⟨merges.distinct, fun path => ?_, fun path => ?_⟩
  · rw [merges.has_iff, collect_has_iff wellTyped tracked ordered flatRoots]
  · rw [merges.links, collect_links_iff wellTyped tracked ordered flatRoots]

end Checked

def Registry.catalog : Registry :=
  ⟨[("Author", .record [("name", .string)]),
    ("Book", .record [("authors", .sequence (.named .type "Author")), ("title", .string)])]⟩

def Expr.credits : Expr :=
  .each "author" (.get (.symbol "this") "authors") (.apply "credit" [.symbol "author"])

def Function.credit : Function where
  params := [.record [("name", .any)]]
  call := fun _ => .ok .null

def Checked.credits : Checked :=
  ⟨.each ⟨"author", 2⟩ (.get 1 (.symbol 0 "this") "authors")
      (.call "credit" [.record [("name", .any)]] [.symbol 2 "author"]),
    ⟨#[⟨none, some "this", .named .type "Book"⟩,
      ⟨some 0, some "authors", .sequence (.named .type "Author")⟩,
      ⟨some 1, none, .named .type "Author"⟩]⟩⟩

theorem Registry.flat_catalog (name : String) : catalog.Flat (.named .type name) := by
  have entries : ∀ entry ∈ catalog.types, entry.2.isFlat = true ∧
      ∃ fields, entry.2 = .record fields := by
    simp [catalog, Ty.isFlat, Ty.areFlat, Ty.isSequence, Ty.inOptional]
  have registered : catalog.AllFlat :=
    fun name ty known => (entries _ (Entries.mem_of_find? known)).1
  exact registered.flat (fun name ty known => (entries _ (Entries.mem_of_find? known)).2) rfl

theorem Checked.requirements_exact_credits :
    Typing.check ⟨.catalog, [("credit", .credit)]⟩ [("this", .named .type "Book")] .credits =
      .ok .credits ∧
    (∀ root ∈ [("this", Ty.named .type "Book")], Registry.catalog.Flat root.2) ∧
    (Checked.credits.requirements .catalog).Has ["this", "authors", "name"] ∧
    (Checked.credits.requirements .catalog).Selects true ["this", "authors"] := by
  have accepted : Typing.check ⟨.catalog, [("credit", .credit)]⟩ [("this", .named .type "Book")]
    .credits = .ok .credits := rfl
  have flat : ∀ root ∈ [("this", Ty.named .type "Book")], Registry.catalog.Flat root.2 :=
    List.forall_mem_singleton.mpr (Registry.flat_catalog "Book")
  have asks : Checked.credits.root.Extends 2 (.ofSelections [.field (.named "name")]) :=
    ⟨"credit", _, _, _, _, .step (.tail _ (.head _)) .refl, .head _, rfl, rfl⟩
  have points : Checked.credits.root.Points 1 := ⟨_, .step (.head _) .refl, rfl⟩
  have linkable : Registry.catalog.Linkable (.sequence (.named .type "Author")) :=
    .inl (.inr ⟨_, rfl, .inl (.inl ⟨_, rfl⟩)⟩)
  obtain ⟨_, has_iff, links_iff⟩ := Checked.requirements_exact accepted flat
  refine ⟨accepted, flat, (has_iff _).mpr ⟨by simp, _, .template asks ?_, List.prefix_refl _⟩,
    (links_iff _).mpr (.reference points ⟨1, _, _, _, .refl, rfl, rfl, linkable⟩)⟩
  exact ⟨false, Query.selects_field_iff.mpr ⟨rfl, rfl⟩⟩

end GraphQuery
