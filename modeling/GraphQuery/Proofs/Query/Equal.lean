import GraphQuery.Proofs.Query.Alike

/-!
Equality of queries, level by level: lists of selections and of fragments are compared by how often
an item occurs in them, and what is below a level by the same equality again.
-/

namespace GraphQuery

section Items

variable {α κ : Type} {same sameToo : α → α → Bool} {items others : List α}

theorem sameItems_iff : sameItems same items others = true ↔ items.length = others.length ∧
    ∀ item ∈ items, items.countP (fun found => same found item) =
      others.countP fun found => same found item := by
  simp only [sameItems, Bool.and_eq_true, beq_iff_eq, List.all_eq_true]

theorem sameItems_self : sameItems same items items = true :=
  sameItems_iff.mpr ⟨rfl, fun _ _ => rfl⟩

theorem sameItems_congr (each : ∀ item ∈ items, ∀ found, found ∈ items ∨ found ∈ others →
    same found item = sameToo found item) :
    sameItems same items others = sameItems sameToo items others := by
  rw [Bool.eq_iff_iff, sameItems_iff, sameItems_iff]
  refine and_congr_right fun _ => forall₂_congr fun item member => ?_
  have here : items.countP (fun found => same found item) =
      items.countP fun found => sameToo found item :=
    List.countP_congr fun found inside => by rw [each item member found (.inl inside)]
  have there : others.countP (fun found => same found item) =
      others.countP fun found => sameToo found item :=
    List.countP_congr fun found inside => by rw [each item member found (.inr inside)]
  rw [here, there]

theorem exists_of_sameItems (equal : sameItems same items others = true) {item : α}
    (member : item ∈ items) (itself : same item item = true) :
    ∃ found ∈ others, same found item = true := by
  have count := (sameItems_iff.mp equal).2 item member
  have positive : 0 < items.countP fun found => same found item :=
    List.countP_pos_iff.mpr ⟨item, member, itself⟩
  exact List.countP_pos_iff.mp (count ▸ positive)

/-- Lists with the same keys are alike when items are equal just where their keys are. -/
theorem sameItems_of_keys [DecidableEq κ] (key : α → κ)
    (keys : (items.map key).Perm (others.map key))
    (each : ∀ item ∈ items, ∀ found, found ∈ items ∨ found ∈ others →
      (same found item = true ↔ key found = key item)) : sameItems same items others = true := by
  have byKey : sameItems same items others =
      sameItems (fun found item => key found == key item) items others := by
    refine sameItems_congr fun item member found inside => ?_
    exact Bool.eq_iff_iff.mpr ((each item member found inside).trans beq_iff_eq.symm)
  rw [byKey]
  refine sameItems_iff.mpr ⟨by simpa using keys.length_eq, fun item _ => ?_⟩
  have counts : ∀ list : List α, list.countP (fun found => key found == key item) =
      (list.map key).count (key item) := by
    intro list
    rw [List.count_eq_countP, List.countP_map]
    rfl
  rw [counts, counts, keys.count_eq]

/-- Lists with each key once are paired off by an equality that goes by keys. -/
theorem paired_of_sameItems (key : α → κ) (nodup : (items.map key).Nodup)
    (nodupToo : (others.map key).Nodup)
    (byKey : ∀ item ∈ items, ∀ found ∈ others, same found item = true → key found = key item)
    (itself : ∀ item ∈ items, same item item = true)
    (equal : sameItems same items others = true) :
    Paired (fun item found => same found item = true) items others := by
  have partner : ∀ item ∈ items, ∃ found ∈ others, same found item = true ∧
      key found = key item := by
    intro item member
    obtain ⟨found, inside, alike⟩ := exists_of_sameItems equal member (itself item member)
    exact ⟨found, inside, alike, byKey item member found inside alike⟩
  have keys : (items.map key).Perm (others.map key) := by
    have subset : items.map key ⊆ others.map key := by
      intro found known
      obtain ⟨item, member, rfl⟩ := List.mem_map.mp known
      obtain ⟨found, inside, _, same⟩ := partner item member
      exact List.mem_map.mpr ⟨found, inside, same⟩
    refine (List.subperm_of_subset nodup subset).perm_of_length_le ?_
    rw [List.length_map, List.length_map]
    exact Nat.le_of_eq (sameItems_iff.mp equal).1.symm
  refine .ofKeys key key keys fun item member other memberToo equalKeys => ?_
  obtain ⟨found, inside, alike, sameKey⟩ := partner item member
  obtain rfl := List.inj_on_of_nodup_map nodupToo inside memberToo (sameKey.trans equalKeys)
  exact alike

end Items

namespace Query

variable {query other : Query}

/-- Queries below a level are all that the equality of two levels depends on. -/
theorem sameItems_selections_congr {same sameToo : Query → Query → Bool}
    (each : ∀ head inner headToo innerToo, .link head inner ∈ query.selections →
      (.link headToo innerToo ∈ query.selections ∨ .link headToo innerToo ∈ other.selections) →
      same innerToo inner = sameToo innerToo inner) :
    sameItems (Selection.sameBy same) query.selections other.selections =
      sameItems (Selection.sameBy sameToo) query.selections other.selections := by
  refine sameItems_congr fun selection member found inside => ?_
  cases selection with
  | field head => cases found <;> rfl
  | link head inner =>
      cases found with
      | field _ => rfl
      | link headToo innerToo =>
          rw [Selection.sameBy, Selection.sameBy, each _ _ _ _ member inside]

theorem sameItems_fragments_congr {same sameToo : Query → Query → Bool}
    (each : ∀ fragment ∈ query.fragments, ∀ found, found ∈ query.fragments ∨
      found ∈ other.fragments → same found.query fragment.query =
        sameToo found.query fragment.query) :
    sameItems (Fragment.sameBy same) query.fragments other.fragments =
      sameItems (Fragment.sameBy sameToo) query.fragments other.fragments := by
  refine sameItems_congr fun fragment member found inside => ?_
  rw [Fragment.sameBy, Fragment.sameBy, each fragment member found inside]

theorem sameWithin_eq {bound boundToo : Nat} (low : query.height ≤ bound)
    (lowOther : other.height ≤ bound) (lowToo : query.height ≤ boundToo)
    (lowOtherToo : other.height ≤ boundToo) :
    sameWithin bound query other = sameWithin boundToo query other := by
  have positive := query.height_pos
  induction bound generalizing boundToo query other with
  | zero => omega
  | succ bound ih =>
      obtain ⟨boundToo, rfl⟩ : ∃ lower, boundToo = lower + 1 := ⟨boundToo - 1, by omega⟩
      rw [height_le_iff] at low lowOther lowToo lowOtherToo
      rw [sameWithin, sameWithin]
      congr 1
      · congr 1
        refine sameItems_selections_congr fun _ inner _ innerToo member inside => ?_
        have below : innerToo.height ≤ bound ∧ innerToo.height ≤ boundToo := by
          rcases inside with inside | inside
          · exact ⟨low.1 _ _ inside, lowToo.1 _ _ inside⟩
          · exact ⟨lowOther.1 _ _ inside, lowOtherToo.1 _ _ inside⟩
        exact ih below.1 (low.1 _ _ member) below.2 (lowToo.1 _ _ member) innerToo.height_pos
      · refine sameItems_fragments_congr fun fragment member found inside => ?_
        have below : found.query.height ≤ bound ∧ found.query.height ≤ boundToo := by
          rcases inside with inside | inside
          · exact ⟨low.2 _ inside, lowToo.2 _ inside⟩
          · exact ⟨lowOther.2 _ inside, lowOtherToo.2 _ inside⟩
        exact ih below.1 (low.2 _ member) below.2 (lowToo.2 _ member) found.query.height_pos

theorem sameWithin_eq_beq {bound : Nat} (low : query.height ≤ bound)
    (lowOther : other.height ≤ bound) : sameWithin bound query other = (query == other) :=
  sameWithin_eq low lowOther (Nat.le_max_left _ other.height) (Nat.le_max_right query.height _)

theorem beq_iff : (query == other) = true ↔ query.ordered = other.ordered ∧
    sameItems (Selection.sameBy (· == ·)) query.selections other.selections = true ∧
    sameItems (Fragment.sameBy (· == ·)) query.fragments other.fragments = true := by
  have first := Nat.le_max_left query.height other.height
  have second := Nat.le_max_right query.height other.height
  generalize max query.height other.height = bound at first second
  have below : ∀ inner innerToo : Query, inner.height ≤ bound → innerToo.height ≤ bound →
      sameWithin bound inner innerToo = (inner == innerToo) :=
    fun _ _ low lowToo => sameWithin_eq_beq low lowToo
  have selections : sameItems (Selection.sameBy (sameWithin bound)) query.selections
      other.selections = sameItems (Selection.sameBy (· == ·)) query.selections
        other.selections := by
    refine sameItems_selections_congr fun _ inner _ innerToo member inside => ?_
    have lower := height_lt_of_link member
    have lowerToo := inside.imp height_lt_of_link height_lt_of_link
    exact below _ _ (by omega) (by omega)
  have fragments : sameItems (Fragment.sameBy (sameWithin bound)) query.fragments
      other.fragments = sameItems (Fragment.sameBy (· == ·)) query.fragments
        other.fragments := by
    refine sameItems_fragments_congr fun fragment member found inside => ?_
    have lower := height_lt_of_fragment member
    have lowerToo := inside.imp height_lt_of_fragment height_lt_of_fragment
    exact below _ _ (by omega) (by omega)
  -- one more step than the heights need is one for this level
  rw [← sameWithin_eq_beq (Nat.le_succ_of_le first) (Nat.le_succ_of_le second), sameWithin,
    selections, fragments, Bool.and_eq_true, Bool.and_eq_true, beq_iff_eq, and_assoc]

theorem beq_self (query : Query) : (query == query) = true :=
  beq_iff.mpr ⟨rfl, sameItems_self, sameItems_self⟩

end Query

namespace Head

variable {head other : Head}

theorem beq_iff : (head == other) = true ↔ head.name = other.name ∧ head.alias? = other.alias? ∧
    sameOptions head.options? other.options? = true ∧
    sameItems (· == ·) head.directives other.directives = true := by
  change (_ && _ && _ && _) = true ↔ _
  rw [Bool.and_eq_true, Bool.and_eq_true, Bool.and_eq_true, beq_iff_eq, beq_iff_eq, and_assoc,
    and_assoc]

theorem beq_self (comparable : head.isComparable = true) : (head == head) = true :=
  beq_iff.mpr ⟨rfl, rfl, (agrees_iff.mp (agrees_self comparable)).2, sameItems_self⟩

end Head

namespace Selection

variable {selection found : Selection}

theorem sameLabel_of_sameBy {below : Query → Query → Bool}
    (same : sameBy below found selection = true) :
    found.resultKey = selection.resultKey ∧ found.name = selection.name := by
  have heads : ∀ head other : Head, (head == other) = true →
      head.resultKey = other.resultKey ∧ head.name = other.name := by
    intro head other same
    obtain ⟨name, key, _⟩ := Head.beq_iff.mp same
    exact ⟨by rw [Head.resultKey, Head.resultKey, name, key], name⟩
  cases selection with
  | field head =>
      cases found with
      | field headToo => exact heads _ _ same
      | link _ _ => cases same
  | link head inner =>
      cases found with
      | field _ => cases same
      | link headToo innerToo =>
          rw [sameBy, Bool.and_eq_true] at same
          exact heads _ _ same.1

theorem sameBy_self (comparable : selection.every Head.isComparable = true) :
    sameBy (· == ·) selection selection = true := by
  cases selection with
  | field head => exact Head.beq_self comparable
  | link head inner =>
      rw [every_link_iff] at comparable
      rw [sameBy, Head.beq_self comparable.1, Query.beq_self, Bool.and_self]

end Selection

end GraphQuery
