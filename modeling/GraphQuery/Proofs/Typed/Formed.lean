import GraphQuery.Proofs.Expr.Renaming
import GraphQuery.Proofs.Typed.Accepts

/-!
Expressions that are accepted are well-formed.
-/

namespace GraphQuery

namespace Typing

variable {typing : Typing}

theorem AcceptsEntries.keywords {scope : Scope} {entries : List (Expr × Expr)}
    {references final : References} {typed : List (String × Typed)}
    (accepts : typing.AcceptsEntries scope entries references typed final) :
    ∀ entry ∈ entries, ∃ name, entry.1 = .keyword name := by
  induction entries generalizing references typed with
  | nil => exact List.forall_mem_nil _
  | cons entry entries ih =>
      cases accepts with
      | cons value rest => exact List.forall_mem_cons.mpr ⟨⟨_, rfl⟩, ih rest⟩

mutual

theorem Accepts.wellFormed {scope : Scope} {expr : Expr} {references final : References}
    {typed : Typed} : typing.Accepts scope expr references typed final → expr.WellFormed
  | .symbol _ => .symbol
  | .constant => .constant
  | .list items => .list items.wellFormed
  | .map entries => .map entries.keywords entries.wellFormed
  | .get labelled object _ _ => .get labelled object.wellFormed
  | .each collection _ _ body => .each collection.wellFormed body.wellFormed
  | .ifElse test yes no => .ifElse test.wellFormed yes.wellFormed no.wellFormed
  | .ifSome bound _ _ yes no => .ifSome bound.wellFormed yes.wellFormed no.wellFormed
  | .call ordinary _ args => .call ordinary args.wellFormed

theorem AcceptsList.wellFormed {scope : Scope} {items : List Expr} {references final : References}
    {typed : List Typed} : typing.AcceptsList scope items references typed final →
      ∀ item ∈ items, item.WellFormed
  | .nil => by simp
  | .cons item rest => List.forall_mem_cons.mpr ⟨item.wellFormed, rest.wellFormed⟩

theorem AcceptsEntries.wellFormed {scope : Scope} {entries : List (Expr × Expr)}
    {references final : References} {typed : List (String × Typed)} :
    typing.AcceptsEntries scope entries references typed final →
      ∀ entry ∈ entries, entry.2.WellFormed
  | .nil => by simp
  | .cons value rest => List.forall_mem_cons.mpr ⟨value.wellFormed, rest.wellFormed⟩

theorem AcceptsArgs.wellFormed {scope : Scope} {args : List Expr} {params : List Ty}
    {references final : References} {typed : List Typed} :
    typing.AcceptsArgs scope args params references typed final → ∀ arg ∈ args, arg.WellFormed
  | .nil => by simp
  | .cons arg _ rest => List.forall_mem_cons.mpr ⟨arg.wellFormed, rest.wellFormed⟩

end

/-- An accepted expression is well-formed. -/
theorem wellFormed_of_check {roots : List (String × Ty)} {expr : Expr} {checked : Checked}
    (accepted : typing.check roots expr = .ok checked) : expr.WellFormed :=
  (check_eq_ok_iff.mp accepted).wellFormed

end Typing

end GraphQuery
