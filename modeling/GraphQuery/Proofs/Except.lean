import Mathlib.Data.List.Forall2

/-!
Opening computations that can fail.
-/

namespace GraphQuery

variable {ε ε' α β : Type}

@[simp] theorem ok_bind (value : α) (next : α → Except ε β) :
    (Except.ok value >>= next) = next value := rfl

@[simp] theorem error_bind (error : ε) (next : α → Except ε β) :
    (Except.error error >>= next) = .error error := rfl

theorem bind_eq_ok_iff {first : Except ε α} {next : α → Except ε β} {result : β} :
    (first >>= next) = .ok result ↔ ∃ value, first = .ok value ∧ next value = .ok result := by
  cases first with
  | error error => simp
  | ok value => simp

theorem bind_eq_error {first : Except ε α} {next : α → Except ε β} {error : ε}
    (failed : (first >>= next) = .error error) :
    first = .error error ∨ ∃ value, first = .ok value ∧ next value = .error error := by
  cases first with
  | error other => exact .inl (congrArg Except.error (Except.error.inj failed))
  | ok value => exact .inr ⟨value, rfl, failed⟩

theorem mapError_eq_ok_iff {first : Except ε α} {change : ε → ε'} {value : α} :
    first.mapError change = .ok value ↔ first = .ok value := by
  cases first with
  | error error => simp [Except.mapError]
  | ok found => simp [Except.mapError]

theorem map_eq_ok_iff {first : Except ε α} {change : α → β} {result : β} :
    first.map change = .ok result ↔ ∃ value, first = .ok value ∧ change value = result := by
  cases first with
  | error error => simp [Except.map]
  | ok value => simp [Except.map]

/-! Computing something of every item of a list -/

variable {items : List α}

theorem mapM_eq_ok_iff {change : α → Except ε β} {results : List β} :
    items.mapM change = .ok results ↔
      List.Forall₂ (fun item result => change item = .ok result) items results := by
  induction items generalizing results with
  | nil =>
      rw [List.mapM_nil, List.forall₂_nil_left_iff]
      constructor
      · exact fun same => (Except.ok.inj same).symm
      · exact fun same => congrArg Except.ok same.symm
  | cons item rest ih =>
      rw [List.mapM_cons, bind_eq_ok_iff, List.forall₂_cons_left_iff]
      constructor
      · rintro ⟨result, changed, onward⟩
        obtain ⟨others, changedRest, made⟩ := bind_eq_ok_iff.mp onward
        exact ⟨result, others, changed, ih.mp changedRest, (Except.ok.inj made).symm⟩
      · rintro ⟨result, others, changed, changedRest, rfl⟩
        exact ⟨result, changed, bind_eq_ok_iff.mpr ⟨others, ih.mpr changedRest, rfl⟩⟩

/-- An error comes of one of the items. -/
theorem mapM_eq_error {change : α → Except ε β} {error : ε}
    (failed : items.mapM change = .error error) : ∃ item ∈ items, change item = .error error := by
  induction items with
  | nil => cases failed
  | cons item rest ih =>
      rw [List.mapM_cons] at failed
      cases changed : change item with
      | error other =>
          rw [changed, error_bind] at failed
          obtain rfl := Except.error.inj failed
          exact ⟨item, List.mem_cons_self, changed⟩
      | ok result =>
          rw [changed, ok_bind] at failed
          cases changedRest : rest.mapM change with
          | error other =>
              rw [changedRest, error_bind] at failed
              obtain rfl := Except.error.inj failed
              obtain ⟨found, member, here⟩ := ih changedRest
              exact ⟨found, List.mem_cons_of_mem _ member, here⟩
          | ok results =>
              rw [changedRest] at failed
              cases failed

theorem mapM_congr {change other : α → Except ε β}
    (each : ∀ item ∈ items, change item = other item) : items.mapM change = items.mapM other := by
  induction items with
  | nil => rfl
  | cons item rest ih =>
      rw [List.mapM_cons, List.mapM_cons, each item List.mem_cons_self,
        ih fun found member => each found (List.mem_cons_of_mem item member)]

theorem exists_of_forall₂_left {related : α → β → Prop} {results : List β}
    (aligned : List.Forall₂ related items results) {item : α} (member : item ∈ items) :
    ∃ result ∈ results, related item result := by
  induction aligned with
  | nil => simp at member
  | cons first _ ih =>
      rcases List.mem_cons.mp member with rfl | member
      · exact ⟨_, List.mem_cons_self, first⟩
      · obtain ⟨result, inside, held⟩ := ih member
        exact ⟨result, List.mem_cons_of_mem _ inside, held⟩

theorem exists_of_forall₂_right {related : α → β → Prop} {results : List β}
    (aligned : List.Forall₂ related items results) {result : β} (member : result ∈ results) :
    ∃ item ∈ items, related item result :=
  exists_of_forall₂_left aligned.flip member

theorem forall₂_through {γ : Type} {first : α → β → Prop} {second : β → γ → Prop}
    {whole : α → γ → Prop} {middle : List β} {results : List γ}
    (aligned : List.Forall₂ first items middle) (onward : List.Forall₂ second middle results)
    (each : ∀ item between result, first item between → second between result →
      whole item result) : List.Forall₂ whole items results := by
  induction aligned generalizing results with
  | nil =>
      cases onward
      exact .nil
  | cons here _ ih =>
      cases onward with
      | cons next others => exact .cons (each _ _ _ here next) (ih others)

theorem exists_mapM_eq_ok {change : α → Except ε β} {related : α → β → Prop}
    (each : ∀ item ∈ items, ∃ result, change item = .ok result ∧ related item result) :
    ∃ results, items.mapM change = .ok results ∧ List.Forall₂ related items results := by
  induction items with
  | nil => exact ⟨[], rfl, .nil⟩
  | cons item rest ih =>
      obtain ⟨result, changed, first⟩ := each item List.mem_cons_self
      obtain ⟨results, changedRest, others⟩ :=
        ih fun other member => each other (List.mem_cons_of_mem item member)
      have aligned := mapM_eq_ok_iff.mp changedRest
      exact ⟨result :: results, mapM_eq_ok_iff.mpr (.cons changed aligned), .cons first others⟩

theorem mapM_map_eq {first second : α → Except ε β} {change : α → α}
    (each : ∀ item ∈ items, first (change item) = second item) :
    (items.map change).mapM first = items.mapM second := by
  induction items with
  | nil => rfl
  | cons item rest ih =>
      rw [List.map_cons, List.mapM_cons, List.mapM_cons, each item List.mem_cons_self,
        ih fun other member => each other (List.mem_cons_of_mem item member)]

theorem mapM_aligned {change : α → Except ε β} {others : List α}
    (aligned : List.Forall₂ (fun item other => change item = change other) items others) :
    items.mapM change = others.mapM change := by
  induction aligned with
  | nil => rfl
  | cons first _ ih => rw [List.mapM_cons, List.mapM_cons, first, ih]

theorem toOption_mapM (change : α → Except ε β) (items : List α) :
    (items.mapM change).toOption = items.mapM fun item => (change item).toOption := by
  induction items with
  | nil => rfl
  | cons item rest ih =>
      rw [List.mapM_cons, List.mapM_cons, ← ih]
      cases change item with
      | error error => rfl
      | ok result => cases rest.mapM change <;> rfl

/-- What comes of computing something of items one after the other: something of each, or the error
of the first that has one. -/
inductive InTurn (gives : α → Except ε β → Prop) : List α → Except ε (List β) → Prop
  | done {items : List α} {results : List β} :
      List.Forall₂ (fun item result => gives item (.ok result)) items results →
      InTurn gives items (.ok results)
  | failed {before after : List α} {item : α} {error : ε} :
      (∀ earlier ∈ before, ∃ result, gives earlier (.ok result)) → gives item (.error error) →
      InTurn gives (before ++ item :: after) (.error error)

theorem inTurn_mapM {γ : Type} {gives : α → Except ε β → Prop} {change : γ → Except ε β}
    {sources : List γ}
    (aligned : List.Forall₂ (fun item source => gives item (change source)) items sources) :
    InTurn gives items (sources.mapM change) := by
  induction aligned with
  | nil => exact .done .nil
  | @cons item source items sources first _ ih =>
      rw [List.mapM_cons]
      cases changed : change source with
      | error error =>
          have nothing : ∀ earlier ∈ ([] : List α), ∃ result, gives earlier (.ok result) := by simp
          exact .failed nothing (changed ▸ first)
      | ok result =>
          rw [changed] at first
          rw [ok_bind]
          generalize sources.mapM change = rest at ih
          cases ih with
          | done others => exact .done (.cons first others)
          | failed earlier here =>
              have both := List.forall_mem_cons.mpr ⟨⟨result, first⟩, earlier⟩
              exact .failed both here

end GraphQuery
