import GraphQuery.Proofs.Typed.Judgement
import GraphQuery.Proofs.Requirement.Unwrapped

/-!
The way back from a reference: it ends in a root with the name that the root is bound to, whatever
was checked, so that making the requirement of a reference comes to an end inside the table.
-/

namespace GraphQuery

namespace References

structure WellFormed (references : References) (names : List String) : Prop where
  ordered : references.Ordered
  refers : ∀ index reference, references.get? index = some reference →
    reference.label? = none → ∃ back, reference.back? = some back
  rooted : ∀ index, index < references.size → ∃ root name,
    (references.chain index).getLast? = some root ∧ root.back? = none ∧
      root.label? = some name ∧ references.rootName? index = some name ∧ name ∈ names

variable {references : References} {names : List String}

theorem rooted_of_roots (ordered : references.Ordered)
    (roots : ∀ index root, references.get? index = some root → root.back? = none →
      ∃ name ∈ names, root.label? = some name) :
    ∀ index, index < references.size → ∃ root name,
      (references.chain index).getLast? = some root ∧ root.back? = none ∧
        root.label? = some name ∧ references.rootName? index = some name ∧ name ∈ names := by
  intro index
  induction index using Nat.strongRecOn with
  | ind index ih =>
      intro inside
      obtain ⟨reference, found⟩ := lt_size_iff.mp inside
      cases refers : reference.back? with
      | none =>
          obtain ⟨name, bound, label⟩ := roots index reference found refers
          have chain := chain_of_root found refers
          exact ⟨reference, name, by simp [chain], refers, label,
            by simp [rootName?, chain, label], bound⟩
      | some back =>
          have earlier := ordered index reference back found refers
          obtain ⟨root, name, ends, first, label, _, bound⟩ :=
            ih back earlier (Nat.lt_trans earlier inside)
          have last : (references.chain index).getLast? = some root := by
            rw [chain_of_back ordered found refers, List.getLast?_cons, ends, Option.getD_some]
          exact ⟨root, name, last, first, label, by simp [rootName?, last, label], bound⟩

theorem WellFormed.of_roots (ordered : references.Ordered)
    (roots : ∀ index root, references.get? index = some root → root.back? = none →
      ∃ name ∈ names, root.label? = some name) : references.WellFormed names where
  ordered := ordered
  refers := by
    intro index reference found unlabelled
    cases refers : reference.back? with
    | some back => exact ⟨back, rfl⟩
    | none =>
        obtain ⟨name, _, label⟩ := roots index reference found refers
        exact nomatch unlabelled.symm.trans label
  rooted := rooted_of_roots ordered roots

end References

namespace Requirement

/--
The walk back from a reference that makes its requirement, one reference at a turn. It stops behind
a root; there is no turn at an index that is outside the table.
-/
inductive WalksBack (types : Registry) (references : References) :
    Option Nat → Option Query → Option Query → Prop
  | stop {required?} : WalksBack types references none required? required?
  | turn {index reference required? result?} : references.get? index = some reference →
      WalksBack types references reference.back? (wrap types required? reference) result? →
      WalksBack types references (some index) required? result?

variable {types : Registry} {references : References} {index? : Option Nat} {index : Nat}
  {below? result? other? : Option Query}

theorem WalksBack.unique (walks : WalksBack types references index? below? result?)
    (walksToo : WalksBack types references index? below? other?) : result? = other? := by
  induction walks with
  | stop =>
      cases walksToo
      rfl
  | turn found _ ih =>
      cases walksToo with
      | turn foundToo rest =>
          obtain rfl := Option.some.inj (found.symm.trans foundToo)
          exact ih rest

theorem walksBack_chain (ordered : references.Ordered) : ∀ index, index < references.size →
    ∀ below?, WalksBack types references (some index) below?
      ((references.chain index).foldl (wrap types) below?) := by
  intro index
  induction index using Nat.strongRecOn with
  | ind index ih =>
      intro inside below?
      obtain ⟨reference, found⟩ := References.lt_size_iff.mp inside
      refine .turn found ?_
      cases refers : reference.back? with
      | none =>
          rw [References.chain_of_root found refers]
          exact .stop
      | some back =>
          have earlier := ordered index reference back found refers
          rw [References.chain_of_back ordered found refers]
          exact ih back earlier (Nat.lt_trans earlier inside) (wrap types below? reference)

theorem walksBack_iff (ordered : references.Ordered) (inside : index < references.size) :
    WalksBack types references (some index) below? result? ↔
      (references.chain index).foldl (wrap types) below? = result? := by
  have walks : WalksBack types references (some index) below? _ :=
    walksBack_chain ordered index inside below?
  exact ⟨walks.unique, fun same => same ▸ walks⟩

end Requirement

namespace Typing

variable {typing : Typing} {roots : List (String × Ty)} {references : References}

theorem Tracked.lt_size {index : Nat} (tracked : typing.Tracked references roots index) :
    index < references.size := by
  cases tracked with
  | root entry _ => exact References.lt_size_of_get? entry
  | field entry _ _ _ => exact References.lt_size_of_get? entry
  | item entry _ _ | present entry _ _ => exact References.lt_size_of_get? entry

theorem label_of_root (grown : (bindRoots roots).2.Grows references) {index : Nat}
    {root : Reference} (found : references.get? index = some root) (first : root.back? = none) :
    ∃ name ∈ roots.map Prod.fst, root.label? = some name := by
  obtain ⟨_, _, places⟩ := bindRoots_spec_places roots
  rcases grown.of_get? found with bound | ⟨back, refers⟩
  · rw [places] at bound
    obtain ⟨entry, inside, rfl⟩ := Option.map_eq_some_iff.mp bound
    exact ⟨entry.1, List.mem_map_of_mem (List.mem_of_getElem? inside), rfl⟩
  · exact nomatch first.symm.trans refers

end Typing

/--
The table of an accepted expression is well-formed: it holds the references that the expression
points to, and the walk back from any of its references ends, in one way only and with the
requirement that is made of that reference.
-/
theorem Checked.references_wellFormed {typing : Typing} {roots : List (String × Ty)} {expr : Expr}
    {checked : Checked} (accepted : typing.check roots expr = .ok checked) :
    (∀ index, checked.root.Points index → index < checked.references.size) ∧
    checked.references.WellFormed (roots.map Prod.fst) ∧
    ∀ types index below?, index < checked.references.size → ∃ result?,
      (∀ other?, Requirement.WalksBack types checked.references (some index) below? other? ↔
        result? = other?) ∧
      Requirement.ofReference types checked.references index below? = result?.toList := by
  obtain ⟨grown, binds, wellTyped⟩ := Typing.check_grown accepted
  refine ⟨fun index points => ?_, ?_, fun types index below? inside => ?_⟩
  · exact (wellTyped.tracked_of_points (.ofRoots binds) points).lt_size
  · exact .of_roots binds.ordered fun _ _ => Typing.label_of_root grown
  · exact ⟨_, fun _ => Requirement.walksBack_iff binds.ordered inside, rfl⟩

theorem Checked.references_wellFormed_bylines :
    Typing.check ⟨.catalog, []⟩ [("this", .named .type "Book")] .bylines = .ok .bylines ∧
    Checked.bylines.root.Points 3 ∧ 3 < Checked.bylines.references.size ∧
    Checked.bylines.references.rootName? 3 = some "this" ∧
    Requirement.WalksBack .catalog Checked.bylines.references (some 3) none
      (some (.ofSelections [.link (.named "this") (.ofSelections [.link (.named "authors")
        (.ofSelections [.field (.named "name")])])])) := by
  have accepted : Typing.check ⟨.catalog, []⟩ [("this", .named .type "Book")] .bylines =
    .ok .bylines := rfl
  have points : Checked.bylines.root.Points 3 := ⟨_, .step (.tail _ (.head _)) .refl, rfl⟩
  obtain ⟨inside, wellFormed, walks⟩ := Checked.references_wellFormed accepted
  have bound := inside 3 points
  obtain ⟨_, name, _, _, _, root, member⟩ := wellFormed.rooted 3 bound
  obtain rfl := List.mem_singleton.mp member
  obtain ⟨none | query, only, required⟩ := walks .catalog 3 none bound
  · exact nomatch required
  · have made := (List.singleton_inj.mp required).symm
    exact ⟨accepted, points, bound, root, (only _).mpr (congrArg some made)⟩

end GraphQuery
