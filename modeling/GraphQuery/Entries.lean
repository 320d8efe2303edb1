/-!
Named entries in the order in which their names were first written. Writing a name again replaces
its value and keeps its place.
-/

namespace GraphQuery

abbrev Entries (α : Type) := List (String × α)

namespace Entries

variable {α β : Type}

def keys (entries : Entries α) : List String :=
  entries.map Prod.fst

def values (entries : Entries α) : List α :=
  entries.map Prod.snd

def find? (entries : Entries α) (key : String) : Option α :=
  List.lookup key entries

def contains (entries : Entries α) (key : String) : Bool :=
  (entries.find? key).isSome

def insert (key : String) (value : α) : Entries α → Entries α
  | [] => [(key, value)]
  | (other, old) :: rest =>
      if other = key then (key, value) :: rest else (other, old) :: insert key value rest

def ofList (pairs : List (String × α)) : Entries α :=
  pairs.foldl (fun entries pair => entries.insert pair.1 pair.2) []

/-- Changes the value at a name, or writes a first value there. -/
def alter (key : String) (first : α) (change : α → α) : Entries α → Entries α
  | [] => [(key, first)]
  | (other, old) :: rest =>
      if other = key then (other, change old) :: rest
      else (other, old) :: alter key first change rest

def mapValues (change : α → β) (entries : Entries α) : Entries β :=
  entries.map fun (key, value) => (key, change value)

@[simp] theorem find?_nil (key : String) : find? ([] : Entries α) key = none := rfl

theorem find?_cons (other key : String) (value : α) (rest : Entries α) :
    find? ((other, value) :: rest) key = if other = key then some value else rest.find? key := by
  simp only [find?, List.lookup_cons]
  by_cases same : key = other
  · simp [same]
  · have different : other ≠ key := fun equal => same equal.symm
    simp [beq_eq_false_iff_ne.mpr same, different]

theorem find?_of_mem {entries : Entries α} (nodup : entries.keys.Nodup) {key : String} {value : α}
    (member : (key, value) ∈ entries) : entries.find? key = some value := by
  induction entries with
  | nil => simp at member
  | cons entry rest ih =>
      obtain ⟨other, old⟩ := entry
      simp only [keys, List.map_cons, List.nodup_cons] at nodup
      rw [find?_cons]
      rcases List.mem_cons.mp member with same | member
      · simp only [Prod.mk.injEq] at same
        simp [same]
      · have different : other ≠ key := by
          rintro rfl
          exact nodup.1 (List.mem_map.mpr ⟨_, member, rfl⟩)
        rw [if_neg different]
        exact ih nodup.2 member

theorem find?_insert (key sought : String) (value : α) (entries : Entries α) :
    (entries.insert key value).find? sought =
      if key = sought then some value else entries.find? sought := by
  induction entries with
  | nil => simp [insert, find?_cons]
  | cons entry rest ih =>
      obtain ⟨other, old⟩ := entry
      simp only [insert]
      split
      · rename_i same
        subst same
        simp only [find?_cons]
        split <;> rfl
      · rename_i different
        have apart : key ≠ other := fun equal => different equal.symm
        simp only [find?_cons, ih]
        split
        · rename_i same
          simp [← same, apart]
        · rfl

theorem keys_insert (key : String) (value : α) (entries : Entries α) :
    (entries.insert key value).keys =
      if key ∈ entries.keys then entries.keys else entries.keys ++ [key] := by
  induction entries with
  | nil => simp [insert, keys]
  | cons entry rest ih =>
      obtain ⟨other, old⟩ := entry
      simp only [insert]
      split
      · rename_i same
        simp [keys, same]
      · rename_i different
        have apart : key ≠ other := fun equal => different equal.symm
        simp only [keys, List.map_cons, List.mem_cons, apart, false_or] at ih ⊢
        rw [ih]
        by_cases known : key ∈ List.map Prod.fst rest <;> simp [known]

theorem mem_of_find? {entries : Entries α} {key : String} {value : α}
    (found : entries.find? key = some value) : (key, value) ∈ entries := by
  obtain ⟨before, after, rfl, _⟩ := List.lookup_eq_some_iff.mp found
  simp

theorem mem_keys_of_find? {entries : Entries α} {key : String} {value : α}
    (found : entries.find? key = some value) : key ∈ entries.keys :=
  List.mem_map.mpr ⟨_, mem_of_find? found, rfl⟩

theorem mem_keys_iff {entries : Entries α} {key : String} :
    key ∈ entries.keys ↔ (entries.find? key).isSome := by
  induction entries with
  | nil => simp [keys]
  | cons entry rest ih =>
      obtain ⟨other, old⟩ := entry
      simp only [keys, List.map_cons, List.mem_cons] at ih ⊢
      rw [ih, find?_cons]
      by_cases same : other = key
      · simp [same]
      · have apart : key ≠ other := fun equal => same equal.symm
        simp [same, apart]

theorem alter_eq_insert (key : String) (first : α) (change : α → α) (entries : Entries α) :
    entries.alter key first change =
      entries.insert key ((entries.find? key).elim first change) := by
  induction entries with
  | nil => rfl
  | cons entry rest ih =>
      obtain ⟨other, old⟩ := entry
      rw [alter, insert, find?_cons]
      by_cases same : other = key
      · simp [same]
      · simp [same, ih]

theorem find?_alter (key sought : String) (first : α) (change : α → α) (entries : Entries α) :
    (entries.alter key first change).find? sought =
      if key = sought then some ((entries.find? key).elim first change)
      else entries.find? sought := by
  rw [alter_eq_insert, find?_insert]

end Entries

end GraphQuery
