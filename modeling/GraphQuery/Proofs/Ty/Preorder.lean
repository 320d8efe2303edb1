import GraphQuery.Proofs.Ty.Comparison

/-!
Where no type unfolds to itself, every type can be used for itself, and what can be used for a type
can be used for all that this type can be used for.
-/

namespace GraphQuery

namespace Ty.Fits

variable {passes : Ty → Ty → Prop} {ty first second third : Ty}

theorem refl (distinct : ∀ fields, ty = .record fields → (Entries.keys fields).Nodup)
    (each : ∀ part ∈ ty.parts, passes part part) : Fits passes ty ty := by
  cases ty with
  | any => exact .any
  | boolean => exact .boolean
  | string => exact .string
  | integer => exact .integer
  | float => exact .float
  | named kind name => exact .named
  | optional item => exact .optional (each item List.mem_cons_self)
  | sequence item => exact .sequence (each item List.mem_cons_self)
  | mapping key value =>
      exact .mapping (each key List.mem_cons_self)
        (each value (List.mem_cons_of_mem _ List.mem_cons_self))
  | record fields =>
      refine .record fun name field member => ⟨field, ?_, each field ?_⟩
      · exact Entries.find?_of_mem (distinct fields rfl) member
      · exact List.mem_map.mpr ⟨_, member, rfl⟩

/-- One comparison, given that what is in the third type can be reached through any other. -/
theorem trans (former : Fits passes first second) (latter : Fits passes second third)
    (each : ∀ part ∈ third.parts, ∀ one other, passes one other → passes other part →
      passes one part)
    (whole : passes first second) (any : ∀ one, passes one .any) : Fits passes first third := by
  cases latter with
  | any => exact .any
  | optional latter =>
      have through := each _ List.mem_cons_self
      cases former with
      | optional former => exact .optional (through _ _ former latter)
      | present unwrapped former => exact .present unwrapped (through _ _ former latter)
  | present unwrapped latter =>
      have through := each _ List.mem_cons_self
      by_cases wrapped : ∃ inner, first = .optional inner
      · obtain ⟨inner, rfl⟩ := wrapped
        -- only what is used for anything is an optional here
        cases former with
        | any => exact .optional (through _ _ (any inner) latter)
        | optional => exact (unwrapped _ rfl).elim
        | present => exact (unwrapped _ rfl).elim
      · exact .present (fun inner same => wrapped ⟨inner, same⟩) (through _ _ whole latter)
  | sequence latter =>
      cases former with
      | sequence former => exact .sequence (each _ List.mem_cons_self _ _ former latter)
  | mapping keys values =>
      cases former with
      | mapping formerKeys formerValues =>
          exact .mapping (each _ List.mem_cons_self _ _ formerKeys keys)
            (each _ (List.mem_cons_of_mem _ List.mem_cons_self) _ _ formerValues values)
  | record latter =>
      cases former with
      | record former =>
          refine .record fun name target member => ?_
          obtain ⟨between, found, latter⟩ := latter name target member
          obtain ⟨source, foundToo, former⟩ := former name between (Entries.mem_of_find? found)
          exact ⟨source, foundToo, each _ (List.mem_map.mpr ⟨_, member, rfl⟩) _ _ former latter⟩
  | boolean | string | integer | float | named => exact former

end Ty.Fits

namespace Registry

variable {types : Registry} {ty first second third : Ty}

def DistinctFields (types : Registry) (ty : Ty) : Prop :=
  ∀ fields, .record fields ∈ types.written [ty] → (Entries.keys fields).Nodup

namespace Acyclic

variable (acyclic : types.Acyclic)

include acyclic

theorem ends (source target : Ty) : types.Ends source target := by
  induction target using acyclic.wellFounded.induction generalizing source with
  | _ target ih =>
      refine .mk (acyclic.settles source) (acyclic.settles target) fun pair member => ?_
      exact ih pair.2 (unfolds_of_resolve (Ty.parts_of_mem_compared member).2) pair.1

theorem checkType_ok_iff (source target : Ty) : types.checkType source target = .ok () ↔
    Ty.Fits (fun inner expected => types.checkType inner expected = .ok ())
      (types.resolve source) (types.resolve target) :=
  (acyclic.ends source target).checkType_ok_iff

theorem checkType_resolve (source target : Ty) :
    types.checkType (types.resolve source) (types.resolve target) = .ok () ↔
      types.checkType source target = .ok () := by
  rw [acyclic.checkType_ok_iff, acyclic.checkType_ok_iff source target,
    (acyclic.settles source).resolve_eq, (acyclic.settles target).resolve_eq]

theorem checkType_any (source : Ty) : types.checkType source .any = .ok () := by
  have resolved : types.resolve .any = .any := resolve_of_next? rfl
  rw [acyclic.checkType_ok_iff, resolved]
  exact .any

theorem checkType_refl (distinct : types.DistinctFields ty) : types.checkType ty ty = .ok () := by
  have closed := types.closed_written [ty]
  have inside : ty ∈ types.written [ty] := mem_written List.mem_cons_self
  rw [DistinctFields] at distinct
  generalize types.written [ty] = list at closed inside distinct
  induction ty using acyclic.wellFounded.induction with
  | _ ty ih =>
      have resolved := closed.resolve inside
      refine (acyclic.checkType_ok_iff ty ty).mpr (.refl ?_ fun part member => ?_)
      · exact fun fields same => distinct fields (same ▸ resolved)
      · exact ih part (unfolds_of_resolve member) (closed _ resolved _ (.inr member))

theorem checkType_trans (former : types.checkType first second = .ok ())
    (latter : types.checkType second third = .ok ()) : types.checkType first third = .ok () := by
  induction third using acyclic.wellFounded.induction generalizing first second with
  | _ third ih =>
      rw [acyclic.checkType_ok_iff] at latter ⊢
      refine ((acyclic.checkType_ok_iff first second).mp former).trans latter ?_ ?_ ?_
      · intro part member one other former latter
        exact ih part (unfolds_of_resolve member) former latter
      · exact (acyclic.checkType_resolve first second).mpr former
      · exact acyclic.checkType_any

end Acyclic

theorem checkType_preorder (acyclic : types.Acyclic) :
    (∀ ty, types.DistinctFields ty → types.checkType ty ty = .ok ()) ∧
      ∀ first second third, types.checkType first second = .ok () →
        types.checkType second third = .ok () → types.checkType first third = .ok () :=
  ⟨fun _ => acyclic.checkType_refl, fun _ _ _ => acyclic.checkType_trans⟩

def aliases : Registry :=
  ⟨[("Song", .named .type "Track"),
    ("Track", .record [("title", .string), ("tags", .mapping .string (.named .union "Tag")),
      ("owner", .named .interface "Self")]),
    ("Self", .named .type "Self")]⟩

def aliasWeight : Ty → Nat
  | .named _ "Song" => 10
  | .named _ "Track" => 9
  | .named .type _ => 1
  | .named _ _ => 2
  | _ => 1

theorem aliases_acyclic : aliases.Acyclic := by
  refine @acyclic_of_weight _ aliasWeight (fun ty => ?_) fun whole found next => ?_
  · unfold aliasWeight
    split <;> decide
  · obtain ⟨kind, name, rfl, known⟩ := next?_eq_some next
    have member := Entries.mem_of_find? known
    simp only [aliases, List.mem_cons, Prod.mk.injEq, List.not_mem_nil, or_false] at member
    rcases member with ⟨rfl, rfl⟩ | ⟨rfl, rfl⟩ | ⟨rfl, rfl⟩
    · cases kind <;> decide
    · cases kind <;> decide
    · cases kind with
      | type => cases next
      | interface | union => decide

def tagged : Ty :=
  .record [("tags", .any), ("title", .optional .string)]

def titled : Ty :=
  .optional (.record [("title", .optional (.optional .any))])

theorem checkType_preorder_aliases : aliases.Acyclic ∧
    aliases.DistinctFields (.named .type "Song") ∧
    aliases.checkType (.named .type "Song") (.named .type "Song") = .ok () ∧
    aliases.checkType (.named .type "Song") tagged = .ok () ∧
    aliases.checkType tagged titled = .ok () ∧
    aliases.checkType (.named .type "Song") titled = .ok () := by
  have distinct : aliases.DistinctFields (.named .type "Song") := by
    intro fields member
    simp only [written, aliases, Ty.written, Ty.writtenInFields, List.flatMap_cons,
      List.flatMap_nil, List.cons_append, List.nil_append, List.append_nil, List.mem_cons,
      List.not_mem_nil, reduceCtorEq, Ty.record.injEq, false_or, or_false] at member
    subst member
    decide
  have former : aliases.checkType (.named .type "Song") tagged = .ok () := by rfl
  have latter : aliases.checkType tagged titled = .ok () := by rfl
  obtain ⟨reflexive, transitive⟩ := checkType_preorder aliases_acyclic
  exact ⟨aliases_acyclic, distinct, reflexive _ distinct, former, latter,
    transitive _ _ _ former latter⟩

end Registry

end GraphQuery
