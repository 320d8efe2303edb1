import GraphQuery.Proofs.Ty.Resolution
import GraphQuery.Requirement.Extract

/-!
Walking from a type to the types of its fields, by labels, through optionals and sequences.
-/

namespace GraphQuery.Registry

inductive HoldsObjects (types : Registry) : Ty → Prop
  | record {ty fields} : types.resolve ty = .record fields → HoldsObjects types ty
  | named {ty kind name} : types.resolve ty = .named kind name → HoldsObjects types ty
  | optional {ty item} : types.resolve ty = .optional item → HoldsObjects types item →
      HoldsObjects types ty
  | sequence {ty item} : types.resolve ty = .sequence item → HoldsObjects types item →
      HoldsObjects types ty

inductive Meets (types : Registry) : Ty → Ty → Prop
  | refl {ty} : Meets types ty ty
  | optional {ty item met} : types.resolve ty = .optional item → Meets types item met →
      Meets types ty met
  | sequence {ty item met} : types.resolve ty = .sequence item → Meets types item met →
      Meets types ty met
  | field {ty fields name field met} : types.resolve ty = .record fields →
      Entries.find? fields name = some field → Meets types field met → Meets types ty met

/--
No sequence is met directly inside a sequence, even through optionals, and no optional directly
inside an optional.
-/
structure Flat (types : Registry) (ty : Ty) : Prop where
  optional : ∀ met item inner, types.Meets ty met → types.resolve met = .optional item →
    types.resolve item ≠ .optional inner
  sequence : ∀ met item inner, types.Meets ty met → types.resolve met = .sequence item →
    types.resolveSome item ≠ .sequence inner

variable {types : Registry} {ty inside : Ty}

namespace Flat

theorem of_meets (flat : types.Flat ty)
    (meets : ∀ met, types.Meets inside met → types.Meets ty met) : types.Flat inside :=
  ⟨fun met item inner way => flat.optional met item inner (meets met way),
    fun met item inner way => flat.sequence met item inner (meets met way)⟩

theorem item (flat : types.Flat ty) (optional : types.resolve ty = .optional inside) :
    types.Flat inside :=
  flat.of_meets fun _ way => .optional optional way

theorem element (flat : types.Flat ty) (sequence : types.resolve ty = .sequence inside) :
    types.Flat inside :=
  flat.of_meets fun _ way => .sequence sequence way

theorem field (flat : types.Flat ty) {fields : List (String × Ty)} {name : String}
    (record : types.resolve ty = .record fields)
    (declared : Entries.find? fields name = some inside) : types.Flat inside :=
  flat.of_meets fun _ way => .field record declared way

end Flat

/-! Links are exactly what holds objects, if types are flat -/

theorem holdsObjects_optional_iff (optional : types.resolve ty = .optional inside) :
    types.HoldsObjects ty ↔ types.HoldsObjects inside := by
  constructor
  · intro holds
    cases holds with
    | optional same inner =>
        rw [optional, Ty.optional.injEq] at same
        exact same ▸ inner
    | record other | named other | sequence other => simp [optional] at other
  · exact .optional optional

theorem holdsObjects_sequence_iff (sequence : types.resolve ty = .sequence inside) :
    types.HoldsObjects ty ↔ types.HoldsObjects inside := by
  constructor
  · intro holds
    cases holds with
    | sequence same inner =>
        rw [sequence, Ty.sequence.injEq] at same
        exact same ▸ inner
    | record other | named other | optional other => simp [sequence] at other
  · exact .sequence sequence

theorem resolveSome_cases (ty : Ty) :
    (∃ item, types.resolve ty = .optional item ∧ types.resolveSome ty = types.resolve item) ∨
      ((∀ item, types.resolve ty ≠ .optional item) ∧ types.resolveSome ty = types.resolve ty) := by
  cases shape : types.resolve ty with
  | optional item => exact Or.inl ⟨item, rfl, by simp [resolveSome, shape]⟩
  | _ => exact Or.inr ⟨by simp, by simp [resolveSome, shape]⟩

/-- The type that is resolved once an optional is taken off: the type itself or what it holds. -/
theorem exists_resolveSome (ty : Ty) : ∃ inner, types.resolveSome ty = types.resolve inner ∧
    (types.HoldsObjects ty ↔ types.HoldsObjects inner) ∧ (types.Flat ty → types.Flat inner) := by
  rcases types.resolveSome_cases ty with ⟨item, optional, same⟩ | ⟨_, same⟩
  · exact ⟨item, same, holdsObjects_optional_iff optional, fun flat => flat.item optional⟩
  · exact ⟨ty, same, Iff.rfl, id⟩

theorem Flat.resolveSome_ne_optional (flat : types.Flat ty) (item : Ty) :
    types.resolveSome ty ≠ .optional item := by
  rcases types.resolveSome_cases ty with ⟨one, optional, same⟩ | ⟨other, same⟩
  · rw [same]
    exact flat.optional ty one item .refl optional
  · rw [same]
    exact other item

theorem Flat.of_resolveSome (flat : types.Flat ty)
    (sequence : types.resolveSome ty = .sequence inside) :
    types.Flat inside ∧ ∀ item, types.resolveSome inside ≠ .sequence item := by
  rcases types.resolveSome_cases ty with ⟨one, optional, same⟩ | ⟨_, same⟩
  · rw [sequence] at same
    exact ⟨(flat.item optional).element same.symm,
      fun item => flat.sequence one inside item (.optional optional .refl) same.symm⟩
  · rw [sequence] at same
    exact ⟨flat.element same.symm, fun item => flat.sequence ty inside item .refl same.symm⟩

theorem isObject_iff : types.isObject ty = true ↔
    (∃ fields, types.resolveSome ty = .record fields) ∨
      ∃ kind name, types.resolveSome ty = .named kind name := by
  simp only [isObject]
  cases types.resolveSome ty with
  | _ => simp

theorem isObject_of_named {kind : NameKind} {name : String}
    (named : types.resolve ty = .named kind name) : types.isObject ty = true :=
  isObject_iff.mpr (.inr ⟨kind, name, by simp only [resolveSome, named]⟩)

theorem isObject_resolve (ty : Ty) : types.isObject (types.resolve ty) = types.isObject ty := by
  rcases types.resolve_resolve ty with same | ⟨⟨_, _, named⟩, _, _, again⟩
  · simp only [isObject, resolveSome, same]
  · rw [isObject_of_named named, isObject_of_named again]

theorem holdsObjects_of_isObject (object : types.isObject ty = true) : types.HoldsObjects ty := by
  obtain ⟨inner, resolved, holds, _⟩ := types.exists_resolveSome ty
  rw [isObject_iff, resolved] at object
  rcases object with ⟨fields, same⟩ | ⟨kind, name, same⟩
  · exact holds.mpr (.record same)
  · exact holds.mpr (.named same)

theorem Flat.isObject (flat : types.Flat ty) (holds : types.HoldsObjects ty)
    (single : ∀ item, types.resolveSome ty ≠ .sequence item) : types.isObject ty = true := by
  have unnested := flat.resolveSome_ne_optional
  obtain ⟨inner, resolved, holds_iff, _⟩ := types.exists_resolveSome ty
  rw [isObject_iff]
  rw [resolved] at single unnested ⊢
  cases holds_iff.mp holds with
  | record same => exact .inl ⟨_, same⟩
  | named same => exact .inr ⟨_, _, same⟩
  | optional same _ => exact (unnested _ same).elim
  | sequence same _ => exact (single _ same).elim

theorem Flat.isLink_iff (flat : types.Flat ty) :
    types.isLink ty = true ↔ types.HoldsObjects ty := by
  obtain ⟨inner, resolved, holds_iff, flatInner⟩ := types.exists_resolveSome ty
  have unnested := flat.resolveSome_ne_optional
  cases shape : types.resolveSome ty with
  | sequence item =>
      obtain ⟨flatItem, single⟩ := flat.of_resolveSome shape
      simp only [isLink, shape]
      rw [holds_iff, holdsObjects_sequence_iff (resolved.symm.trans shape)]
      exact ⟨holdsObjects_of_isObject, fun holds => flatItem.isObject holds single⟩
  | _ =>
      have same : types.isLink ty = types.isObject inner := by
        rw [← isObject_resolve inner, ← resolved]
        simp only [isLink, shape]
      rw [same, holds_iff]
      refine ⟨holdsObjects_of_isObject, fun holds => (flatInner flat).isObject holds ?_⟩
      rw [resolved] at shape unnested
      rcases types.resolveSome_cases inner with ⟨item, optional, _⟩ | ⟨_, plain⟩
      · exact (unnested item optional).elim
      · simp [plain, shape]

theorem Flat.isLink_eq (flat : types.Flat ty) (flatInside : types.Flat inside)
    (same : types.HoldsObjects ty ↔ types.HoldsObjects inside) :
    types.isLink ty = types.isLink inside := by
  rw [Bool.eq_iff_iff, flat.isLink_iff, flatInside.isLink_iff, same]

/-! What a link is by the type as it is written -/

def IsObject (types : Registry) (ty : Ty) : Prop :=
  (∃ fields, types.resolve ty = .record fields) ∨ ∃ kind name, types.resolve ty = .named kind name

def UnderOptional (types : Registry) (holds : Ty → Prop) (ty : Ty) : Prop :=
  holds ty ∨ ∃ item, types.resolve ty = .optional item ∧ holds item

def UnderSequence (types : Registry) (holds : Ty → Prop) (ty : Ty) : Prop :=
  holds ty ∨ ∃ item, types.resolve ty = .sequence item ∧ holds item

/-- Objects under at most an optional sequence of optionals. -/
def Linkable (types : Registry) : Ty → Prop :=
  types.UnderOptional (types.UnderSequence (types.UnderOptional types.IsObject))

theorem isObject_iff_underOptional :
    types.isObject ty = true ↔ types.UnderOptional types.IsObject ty := by
  rw [isObject_iff]
  constructor
  · rcases types.resolveSome_cases ty with ⟨item, optional, same⟩ | ⟨_, same⟩
    · rw [same]
      exact fun object => .inr ⟨item, optional, object⟩
    · rw [same]
      exact .inl
  · rintro ((⟨fields, same⟩ | ⟨kind, name, same⟩) | ⟨item, optional, object⟩)
    · exact .inl ⟨fields, by simp only [resolveSome, same]⟩
    · exact .inr ⟨kind, name, by simp only [resolveSome, same]⟩
    · have same : types.resolveSome ty = types.resolve item := by simp only [resolveSome, optional]
      exact same ▸ object

theorem isLink_iff_underSequence {inner : Ty} (resolved : types.resolveSome ty = types.resolve inner) :
    types.isLink ty = true ↔ types.UnderSequence (types.UnderOptional types.IsObject) inner := by
  rw [UnderSequence, ← isObject_iff_underOptional, isLink]
  cases shape : types.resolve inner with
  | sequence item =>
      have noObject : types.isObject inner ≠ true := by simp [isObject, resolveSome, shape]
      simp only [resolved, shape, noObject, Bool.false_eq_true, false_or, Ty.sequence.injEq,
        exists_eq_left', isObject_iff_underOptional]
  | _ =>
      simp only [resolved, shape, reduceCtorEq, false_and, exists_false, or_false]
      rw [← shape, isObject_resolve]

theorem isLink_iff_linkable : types.isLink ty = true ↔ types.Linkable ty := by
  rcases types.resolveSome_cases ty with ⟨item, optional, same⟩ | ⟨single, same⟩
  · rw [isLink_iff_underSequence same]
    constructor
    · exact fun holds => .inr ⟨item, optional, holds⟩
    · have inside : ∀ other, types.resolve ty = .optional other → other = item :=
        fun other again => Ty.optional.inj (again.symm.trans optional)
      rintro ((((⟨_, other⟩ | ⟨_, _, other⟩) | ⟨_, again, object⟩) | ⟨_, other, _⟩) |
        ⟨_, again, holds⟩)
      · simp [optional] at other
      · simp [optional] at other
      · exact .inl (.inl (inside _ again ▸ object))
      · simp [optional] at other
      · exact inside _ again ▸ holds
  · rw [isLink_iff_underSequence same]
    constructor
    · exact .inl
    · rintro (holds | ⟨item, optional, _⟩)
      · exact holds
      · exact (single item optional).elim

/-! Ways through optionals and sequences, and from label to label -/

inductive Peels (types : Registry) (outer : Ty) : Ty → Prop
  | refl : Peels types outer outer
  | optional {ty item} : Peels types outer ty → types.resolve ty = .optional item →
      Peels types outer item
  | sequence {ty item} : Peels types outer ty → types.resolve ty = .sequence item →
      Peels types outer item

inductive Reaches (types : Registry) : Ty → List (String × Ty) → Prop
  | record {ty fields} : types.resolve ty = .record fields → Reaches types ty fields
  | optional {ty item fields} : types.resolve ty = .optional item → Reaches types item fields →
      Reaches types ty fields
  | sequence {ty item fields} : types.resolve ty = .sequence item → Reaches types item fields →
      Reaches types ty fields

inductive Walks (types : Registry) : Ty → List String → Ty → Prop
  | nil {here : Ty} : Walks types here [] here
  | cons {ty fields name field path last} : Reaches types ty fields →
      Entries.find? fields name = some field → Walks types field path last →
      Walks types ty (name :: path) last

namespace Peels

variable {outer : Ty}

theorem flat (peels : types.Peels outer ty) (flatOuter : types.Flat outer) : types.Flat ty := by
  induction peels with
  | refl => exact flatOuter
  | optional _ optional ih => exact ih.item optional
  | sequence _ sequence ih => exact ih.element sequence

theorem holdsObjects_iff (peels : types.Peels outer ty) :
    types.HoldsObjects outer ↔ types.HoldsObjects ty := by
  induction peels with
  | refl => exact Iff.rfl
  | optional _ optional ih => rw [ih, holdsObjects_optional_iff optional]
  | sequence _ sequence ih => rw [ih, holdsObjects_sequence_iff sequence]

theorem reaches (peels : types.Peels outer ty) {fields : List (String × Ty)}
    (reaches : types.Reaches ty fields) : types.Reaches outer fields := by
  induction peels with
  | refl => exact reaches
  | optional _ optional ih => exact ih (.optional optional reaches)
  | sequence _ sequence ih => exact ih (.sequence sequence reaches)

end Peels

namespace Reaches

variable {fields others : List (String × Ty)}

theorem unique (reaches : types.Reaches ty fields) (reachesToo : types.Reaches ty others) :
    fields = others := by
  induction reaches with
  | record same =>
      cases reachesToo with
      | record other => simpa [same] using other
      | optional other _ | sequence other _ => simp [same] at other
  | optional same _ ih =>
      cases reachesToo with
      | optional other inner =>
          rw [same, Ty.optional.injEq] at other
          exact ih (other ▸ inner)
      | record other | sequence other _ => simp [same] at other
  | sequence same _ ih =>
      cases reachesToo with
      | sequence other inner =>
          rw [same, Ty.sequence.injEq] at other
          exact ih (other ▸ inner)
      | record other | optional other _ => simp [same] at other

theorem holdsObjects (reaches : types.Reaches ty fields) : types.HoldsObjects ty := by
  induction reaches with
  | record same => exact .record same
  | optional same _ ih => exact .optional same ih
  | sequence same _ ih => exact .sequence same ih

theorem flat (reaches : types.Reaches ty fields) (flatTy : types.Flat ty) {name : String}
    (declared : Entries.find? fields name = some inside) : types.Flat inside := by
  induction reaches with
  | record same => exact flatTy.field same declared
  | optional same _ ih => exact ih (flatTy.item same) declared
  | sequence same _ ih => exact ih (flatTy.element same) declared

end Reaches

namespace Walks

variable {path rest : List String} {last other : Ty}

theorem unique (walks : types.Walks ty path last) (walksToo : types.Walks ty path other) :
    last = other := by
  induction walks with
  | nil =>
      cases walksToo with
      | nil => rfl
  | cons reaches declared _ ih =>
      cases walksToo with
      | cons reachesToo declaredToo walksToo =>
          obtain rfl := reaches.unique reachesToo
          obtain rfl := Option.some.inj (declared.symm.trans declaredToo)
          exact ih walksToo

theorem trans (walks : types.Walks ty path last) (further : types.Walks last rest other) :
    types.Walks ty (path ++ rest) other := by
  induction walks with
  | nil => exact further
  | cons reaches declared _ ih => exact .cons reaches declared (ih further)

theorem split (walks : types.Walks ty (path ++ rest) last) :
    ∃ mid, types.Walks ty path mid ∧ types.Walks mid rest last := by
  induction path generalizing ty with
  | nil => exact ⟨ty, .nil, walks⟩
  | cons name path ih =>
      cases walks with
      | cons reaches declared walks =>
          obtain ⟨mid, before, after⟩ := ih walks
          exact ⟨mid, .cons reaches declared before, after⟩

theorem holdsObjects (walks : types.Walks ty path last) (more : path ≠ []) :
    types.HoldsObjects ty := by
  cases walks with
  | nil => exact (more rfl).elim
  | cons reaches _ _ => exact reaches.holdsObjects

theorem peel (peels : types.Peels ty inside) {name : String}
    (walks : types.Walks inside (name :: path) last) : types.Walks ty (name :: path) last := by
  cases walks with
  | cons reaches declared walks => exact .cons (peels.reaches reaches) declared walks

theorem flat (walks : types.Walks ty path last) (flatTy : types.Flat ty) : types.Flat last := by
  induction walks with
  | nil => exact flatTy
  | cons reaches declared _ ih => exact ih (reaches.flat flatTy declared)

end Walks

end GraphQuery.Registry
