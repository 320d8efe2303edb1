import GraphQuery.Proofs.Conformance
import GraphQuery.Proofs.Ty.Comparison

/-!
A type that can be used where another is expected has no values that do not conform to the other.
-/

namespace GraphQuery

namespace Registry

variable {types : Registry} {unresolved : NameKind → String → Value → Prop} {source target : Ty}
  {value : Value}

namespace Conforms

theorem congr (same : types.resolve source = types.resolve target)
    (conforms : Conforms types unresolved source value) :
    Conforms types unresolved target value := by
  cases conforms with
  | any shape => exact .any (same ▸ shape)
  | boolean shape => exact .boolean (same ▸ shape)
  | string shape => exact .string (same ▸ shape)
  | integer shape => exact .integer (same ▸ shape)
  | float shape => exact .float (same ▸ shape)
  | null shape => exact .null (same ▸ shape)
  | present shape inner => exact .present (same ▸ shape) inner
  | sequence shape each => exact .sequence (same ▸ shape) each
  | mapping shape each => exact .mapping (same ▸ shape) each
  | record shape present each => exact .record (same ▸ shape) present each
  | named shape held => exact .named (same ▸ shape) held

theorem entries {key item : Ty} (conforms : Conforms types unresolved source value)
    (mapping : types.resolve source = .mapping key item) : ∃ entries, value = .object entries ∧
      ∀ name one, Entries.find? entries name = some one →
        Conforms types unresolved item one := by
  cases conforms with
  | mapping same each =>
      rw [mapping, Ty.mapping.injEq] at same
      obtain ⟨rfl, rfl⟩ := same
      exact ⟨_, rfl, each⟩
  | any other | boolean other | string other | integer other | float other | null other
  | present other | sequence other | record other | named other => simp [mapping] at other

theorem fields {fields : List (String × Ty)} (conforms : Conforms types unresolved source value)
    (record : types.resolve source = .record fields) : ∃ entries, value = .object entries ∧
      ∀ name field, Entries.find? fields name = some field →
        ∃ one, Entries.find? entries name = some one ∧ Conforms types unresolved field one := by
  cases conforms with
  | record same present each =>
      rw [record, Ty.record.injEq] at same
      subst same
      refine ⟨_, rfl, fun name field declared => ?_⟩
      obtain ⟨one, found⟩ := Option.isSome_iff_exists.mp (present name field declared)
      exact ⟨one, found, each name field one declared found⟩
  | any other | boolean other | string other | integer other | float other | null other
  | present other | sequence other | mapping other | named other => simp [record] at other

/-- One comparison, given that what it goes on to compare holds no other values. -/
theorem ofFits (settles : types.Settles source) (fits : Ty.Fits (fun inner expected =>
      ∀ one, Conforms types unresolved inner one → Conforms types unresolved expected one)
      (types.resolve source) (types.resolve target))
    (conforms : Conforms types unresolved source value) :
    Conforms types unresolved target value := by
  generalize shape : types.resolve source = found at fits
  generalize expected : types.resolve target = sought at fits
  cases fits with
  | any => exact .any expected
  | optional inner =>
      by_cases null : value = .null
      · exact null ▸ .null expected
      · exact .present expected (inner value (conforms.item shape null))
  | present _ inner =>
      have resolved : types.resolve source = types.resolve found := by
        rw [← shape, settles.resolve_eq]
      exact .present expected (inner value (conforms.congr resolved))
  | sequence inner =>
      obtain ⟨values, rfl, each⟩ := conforms.items shape
      exact .sequence expected fun one member => inner one (each one member)
  | mapping _ inner =>
      obtain ⟨entries, rfl, each⟩ := conforms.entries shape
      exact .mapping expected fun name one found => inner one (each name one found)
  | record asked =>
      obtain ⟨entries, rfl, each⟩ := conforms.fields shape
      refine .record expected (fun name field declared => ?_)
        fun name field one declared found => ?_
      · obtain ⟨inner, known, _⟩ := asked name field (Entries.mem_of_find? declared)
        obtain ⟨one, found, _⟩ := each name inner known
        rw [Entries.contains, found]
        rfl
      · obtain ⟨inner, known, passes⟩ := asked name field (Entries.mem_of_find? declared)
        obtain ⟨other, foundToo, conforms⟩ := each name inner known
        obtain rfl := Option.some.inj (found.symm.trans foundToo)
        exact passes one conforms
  | boolean | string | integer | float | named => exact conforms.congr (shape.trans expected.symm)

end Conforms

/-- What conforms to a type conforms to every type that it can be used for. -/
theorem conforms_of_checkType (ends : types.Ends source target)
    (passed : types.checkType source target = .ok ())
    (conforms : Conforms types unresolved source value) :
    Conforms types unresolved target value := by
  induction ends generalizing value with
  | mk settled settledToo each ih =>
      have fits := (Ends.mk settled settledToo each).checkType_ok_iff.mp passed
      exact conforms.ofFits settled (fits.imp fun pair member passed one => ih pair member passed)

def tracks : Registry :=
  ⟨[("Track", .record [("title", .string), ("next", .optional (.named .type "Track"))]),
    ("Song", .named .type "Track"),
    ("Listed", .record [("next", .optional .any), ("title", .optional .string)])]⟩

def songs : Ty :=
  .sequence (.named .type "Song")

def listing : Ty :=
  .optional (.sequence (.named .interface "Listed"))

def lastTrack : Value :=
  .object [("title", .string "Outro"), ("next", .null)]

def firstTrack : Value :=
  .object [("title", .string "Intro"), ("next", lastTrack)]

theorem conforms_of_checkType_tracks :
    tracks.Ends songs listing ∧ tracks.checkType songs listing = .ok () ∧
      Conforms tracks (fun _ _ _ => False) songs (.list [firstTrack, lastTrack]) ∧
      Conforms tracks (fun _ _ _ => False) listing (.list [firstTrack, lastTrack]) := by
  have passed : tracks.checkType songs listing = .ok () := by rfl
  have settles : ∀ ty ∈ tracks.written [songs, listing], tracks.Settles ty := by
    unfold Settles
    decide
  have ends : tracks.Ends songs listing :=
    ends_of_checkWithin_ok (closed_written _ _) settles (mem_written List.mem_cons_self)
      (mem_written (List.mem_cons_of_mem _ List.mem_cons_self)) passed
  have same : tracks.resolve (.named .type "Song") = tracks.resolve (.named .type "Track") := rfl
  have track : ∀ title next,
      Conforms tracks (fun _ _ _ => False) (.optional (.named .type "Track")) next →
        Conforms tracks (fun _ _ _ => False) (.named .type "Song")
          (.object [("title", .string title), ("next", next)]) := fun title next conforms =>
    .ofAligned rfl (.cons ⟨rfl, .string rfl⟩ (.cons ⟨rfl, conforms⟩ .nil))
  have last : Conforms tracks (fun _ _ _ => False) (.named .type "Song") lastTrack :=
    track "Outro" .null (.null rfl)
  have first : Conforms tracks (fun _ _ _ => False) (.named .type "Song") firstTrack :=
    track "Intro" lastTrack (.present rfl (last.congr same))
  have conforms : Conforms tracks (fun _ _ _ => False) songs (.list [firstTrack, lastTrack]) := by
    refine .sequence rfl fun one member => ?_
    simp only [List.mem_cons, List.not_mem_nil, or_false] at member
    rcases member with rfl | rfl
    · exact first
    · exact last
  exact ⟨ends, passed, conforms, conforms_of_checkType ends passed conforms⟩

end Registry

end GraphQuery
