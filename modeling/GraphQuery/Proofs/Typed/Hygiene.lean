import GraphQuery.Proofs.Op.Program
import GraphQuery.Proofs.Typed.Formed
import GraphQuery.Requirement.Extract

/-!
Bound names are only names: expressions that are the same but for the names that they bind are
accepted together, require the same, and compile to one program.
-/

namespace GraphQuery

/-- What names are bound to is what the names that stand for them are bound to, and only a name that
is not bound stands for itself. -/
def Renaming.Aligns (names : Renaming) (bound boundToo : List (String × Nat)) : Prop :=
  ∀ name other, names.Maps name other →
    bound.lookup name = boundToo.lookup other ∧ (bound.lookup name = none → name = other)

namespace Renaming.Aligns

variable {names : Renaming} {bound boundToo : List (String × Nat)}

theorem refl : Aligns [] bound bound := by
  rintro name _ rfl
  exact ⟨rfl, fun _ => rfl⟩

theorem cons (aligns : names.Aligns bound boundToo) (name nameToo : String) (index : Nat) :
    Aligns ((name, nameToo) :: names) ((name, index) :: bound) ((nameToo, index) :: boundToo) := by
  rintro sought other (⟨rfl, rfl⟩ | ⟨different, differentToo, maps⟩)
  · simp
  · rw [List.lookup_cons, beq_eq_false_iff_ne.mpr different, List.lookup_cons,
      beq_eq_false_iff_ne.mpr differentToo]
    exact aligns sought other maps

end Renaming.Aligns

namespace Typed

inductive Alike : Renaming → Typed → Typed → Prop
  | symbol {names reference name other} : names.Maps name other →
      Alike names (.symbol reference name) (.symbol reference other)
  | constant {names atom} : Alike names (.constant atom) (.constant atom)
  | get {names reference object other name} : Alike names object other →
      Alike names (.get reference object name) (.get reference other name)
  | each {names name nameToo reference collection other body bodyToo} :
      Alike names collection other → Alike ((name, nameToo) :: names) body bodyToo →
      Alike names (.each ⟨name, reference⟩ collection body)
        (.each ⟨nameToo, reference⟩ other bodyToo)
  | ifElse {names test testToo yes yesToo no noToo} : Alike names test testToo →
      Alike names yes yesToo → Alike names no noToo →
      Alike names (.ifElse test yes no) (.ifElse testToo yesToo noToo)
  | ifSome {names name nameToo reference bound boundToo yes yesToo no noToo} :
      Alike names bound boundToo → Alike ((name, nameToo) :: names) yes yesToo →
      Alike names no noToo → Alike names (.ifSome ⟨name, reference⟩ bound yes no)
        (.ifSome ⟨nameToo, reference⟩ boundToo yesToo noToo)
  | call {names function params args others} : args.length = others.length →
      (∀ arg other, (arg, other) ∈ args.zip others → Alike names arg other) →
      Alike names (.call function params args) (.call function params others)
  | list {names items others} : items.length = others.length →
      (∀ item other, (item, other) ∈ items.zip others → Alike names item other) →
      Alike names (.list items) (.list others)
  | map {names entries others} : entries.length = others.length →
      (∀ entry other, (entry, other) ∈ entries.zip others → entry.1 = other.1) →
      (∀ entry other, (entry, other) ∈ entries.zip others → Alike names entry.2 other.2) →
      Alike names (.map entries) (.map others)

namespace Alike

variable {names : Renaming} {typed other : Typed} {types : Registry} {references : References}

theorem of_list {items others : List Typed} (alike : List.Forall₂ (Alike names) items others) :
    Alike names (.list items) (.list others) :=
  .list alike.length_eq fun _ _ => (List.forall₂_iff_zip.mp alike).2

theorem of_call {function : String} {params : List Ty} {args others : List Typed}
    (alike : List.Forall₂ (Alike names) args others) :
    Alike names (.call function params args) (.call function params others) :=
  .call alike.length_eq fun _ _ => (List.forall₂_iff_zip.mp alike).2

theorem of_map {entries others : List (String × Typed)} (alike : List.Forall₂
    (fun entry other => entry.1 = other.1 ∧ Alike names entry.2 other.2) entries others) :
    Alike names (.map entries) (.map others) :=
  .map alike.length_eq (fun _ _ member => ((List.forall₂_iff_zip.mp alike).2 member).1)
    fun _ _ member => ((List.forall₂_iff_zip.mp alike).2 member).2

theorem reference (alike : Alike names typed other) : typed.reference? = other.reference? := by
  cases alike <;> rfl

theorem fits {typing : Typing} {arg argToo : Expr} {param : Ty} {mismatch : Mismatch → TypingError}
    (alike : Alike names typed other)
    (accepted : typing.fits references arg typed param mismatch = .ok ()) :
    typing.fits references argToo other param mismatch = .ok () := by
  unfold Typing.fits at accepted ⊢
  cases alike with
  | symbol | get => exact accepted
  | @constant _ atom => cases atom <;> exact accepted
  | _ =>
      -- neither has a reference, so that both fit where no template asks for one
      simp only [Typed.reference?] at accepted ⊢
      split at accepted
      · cases accepted
      · rename_i unasked
        rw [if_neg unasked]

/-! Alike parts require the same -/

theorem collectList_eq {items others : List Typed} (alike : List.Forall₂
    (fun item other => Requirement.collect types references item =
      Requirement.collect types references other) items others) :
    Requirement.collectList types references items =
      Requirement.collectList types references others := by
  induction alike with
  | nil => rfl
  | cons head _ ih => rw [Requirement.collectList, Requirement.collectList, head, ih]

theorem collectEntries_eq {entries others : List (String × Typed)} (alike : List.Forall₂
    (fun entry other => Requirement.collect types references entry.2 =
      Requirement.collect types references other.2) entries others) :
    Requirement.collectEntries types references entries =
      Requirement.collectEntries types references others := by
  induction alike with
  | nil => rfl
  | cons head _ ih => rw [Requirement.collectEntries, Requirement.collectEntries, head, ih]

theorem collectArgs_eq {args others : List Typed} (alike : List.Forall₂
    (fun arg other => arg.reference? = other.reference? ∧
      Requirement.collect types references arg = Requirement.collect types references other)
    args others) (params : List Ty) :
    Requirement.collectArgs types references args params =
      Requirement.collectArgs types references others params := by
  induction alike generalizing params with
  | nil => rfl
  | cons head _ ih =>
      cases params with
      | nil => rfl
      | cons param params =>
          rw [Requirement.collectArgs, Requirement.collectArgs, head.1, head.2, ih]

theorem collect (alike : Alike names typed other) :
    Requirement.collect types references typed = Requirement.collect types references other := by
  induction alike with
  | symbol | constant => rfl
  | get _ ih => rw [Requirement.collect, Requirement.collect, ih]; rfl
  | each _ _ ihCollection ihBody =>
      rw [Requirement.collect, Requirement.collect, ihCollection, ihBody]
  | ifElse _ _ _ ihTest ihYes ihNo =>
      rw [Requirement.collect, Requirement.collect, ihTest, ihYes, ihNo]
  | ifSome _ _ _ ihBound ihYes ihNo =>
      rw [Requirement.collect, Requirement.collect, ihBound, ihYes, ihNo]
  | call length alike ih =>
      rw [Requirement.collect, Requirement.collect]
      exact collectArgs_eq (List.forall₂_iff_zip.mpr ⟨length, fun inside =>
        ⟨(alike _ _ inside).reference, ih _ _ inside⟩⟩) _
  | list length _ ih =>
      rw [Requirement.collect, Requirement.collect]
      exact collectList_eq (List.forall₂_iff_zip.mpr ⟨length, fun inside => ih _ _ inside⟩)
  | map length _ _ ih =>
      rw [Requirement.collect, Requirement.collect]
      exact collectEntries_eq (List.forall₂_iff_zip.mpr ⟨length, fun inside => ih _ _ inside⟩)

/-! Alike parts compile to the same -/

theorem compileList_eq {items others : List Typed} {slots slotsToo : Op.Slots}
    (alike : List.Forall₂ (fun item other => ∀ used,
      Op.compile references slots item used = Op.compile references slotsToo other used)
      items others) (used : Nat) :
    Op.compileList references slots items used =
      Op.compileList references slotsToo others used := by
  induction alike generalizing used with
  | nil => rfl
  | cons head _ ih => simp only [Op.compileList, head, ih]

theorem compileEntries_eq {entries others : List (String × Typed)} {slots slotsToo : Op.Slots}
    (alike : List.Forall₂ (fun entry other => entry.1 = other.1 ∧ ∀ used,
      Op.compile references slots entry.2 used = Op.compile references slotsToo other.2 used)
      entries others) (used : Nat) :
    Op.compileEntries references slots entries used =
      Op.compileEntries references slotsToo others used := by
  induction alike generalizing used with
  | nil => rfl
  | cons head _ ih => simp only [Op.compileEntries, head.1, head.2, ih]

theorem compile (alike : Alike names typed other) {slots slotsToo : Op.Slots}
    (aligns : names.Aligns slots slotsToo) (used : Nat) :
    Op.compile references slots typed used = Op.compile references slotsToo other used := by
  induction alike generalizing slots slotsToo used with
  | @symbol names reference name other maps =>
      obtain ⟨same, unbound⟩ := aligns name other maps
      rw [Op.compile, Op.compile, ← same]
      cases found : slots.lookup name with
      | none => rw [unbound found]
      | some index => rfl
  | constant => rfl
  | get _ ih => rw [Op.compile, Op.compile, ih aligns]
  | @each _ name nameToo _ _ _ _ _ _ _ ihCollection ihBody =>
      rw [Op.compile, Op.compile, ihCollection aligns]
      refine bind_congr fun found => ?_
      obtain ⟨collection, free⟩ := found
      simp only [ihBody (aligns.cons name nameToo free)]
  | ifElse _ _ _ ihTest ihYes ihNo =>
      simp only [Op.compile, ihTest aligns, ihYes aligns, ihNo aligns]
  | @ifSome _ name nameToo _ _ _ _ _ _ _ _ _ _ ihBound ihYes ihNo =>
      simp only [Op.compile, ihBound aligns, ihNo aligns]
      refine bind_congr fun found => ?_
      obtain ⟨bound, free⟩ := found
      simp only [ihYes (aligns.cons name nameToo free)]
  | call length _ ih =>
      rw [Op.compile, Op.compile, compileList_eq (List.forall₂_iff_zip.mpr ⟨length,
        fun inside used => ih _ _ inside aligns used⟩)]
  | list length _ ih =>
      rw [Op.compile, Op.compile, compileList_eq (List.forall₂_iff_zip.mpr ⟨length,
        fun inside used => ih _ _ inside aligns used⟩)]
  | map length keys _ ih =>
      rw [Op.compile, Op.compile, compileEntries_eq (List.forall₂_iff_zip.mpr ⟨length,
        fun inside => ⟨keys _ _ inside, fun used => ih _ _ inside aligns used⟩⟩)]

end Alike

end Typed

namespace Typing

variable {typing : Typing} {names : Renaming} {scope scopeToo : Scope}
  {references final : References}

theorem Fits.alike {typed other : Typed} {param : Ty} (fits : Fits typing references typed param)
    (alike : Typed.Alike names typed other) : Fits typing references other param := by
  obtain ⟨arg, mismatch, passed⟩ := fits
  exact ⟨arg, mismatch, alike.fits passed⟩

/-- Wherever the first expression is accepted the second one is, with the same references. -/
def Follows (typing : Typing) (names : Renaming) (scope scopeToo : Scope)
    (expr other : Expr) : Prop :=
  ∀ references typed final, typing.Accepts scope expr references typed final →
    ∃ typedToo, typing.Accepts scopeToo other references typedToo final ∧
      Typed.Alike names typed typedToo

theorem AcceptsList.follow {items others : List Expr} {typed : List Typed}
    (alike : List.Forall₂ (Follows typing names scope scopeToo) items others)
    (accepts : typing.AcceptsList scope items references typed final) :
    ∃ typedToo, typing.AcceptsList scopeToo others references typedToo final ∧
      List.Forall₂ (Typed.Alike names) typed typedToo := by
  induction alike generalizing references typed with
  | nil =>
      cases accepts with
      | nil => exact ⟨[], .nil, .nil⟩
  | cons head _ ih =>
      cases accepts with
      | cons item rest =>
          obtain ⟨_, itemToo, alikeHead⟩ := head _ _ _ item
          obtain ⟨_, restToo, alikeRest⟩ := ih rest
          exact ⟨_, .cons itemToo restToo, .cons alikeHead alikeRest⟩

theorem AcceptsEntries.follow {entries others : List (Expr × Expr)}
    {typed : List (String × Typed)}
    (alike : List.Forall₂ (fun entry other => entry.1 = other.1 ∧
      Follows typing names scope scopeToo entry.2 other.2) entries others)
    (accepts : typing.AcceptsEntries scope entries references typed final) :
    ∃ typedToo, typing.AcceptsEntries scopeToo others references typedToo final ∧
      List.Forall₂ (fun entry other => entry.1 = other.1 ∧
        Typed.Alike names entry.2 other.2) typed typedToo := by
  induction alike generalizing references typed with
  | nil =>
      cases accepts with
      | nil => exact ⟨[], .nil, .nil⟩
  | @cons _ other _ _ head _ ih =>
      obtain ⟨key, valueToo⟩ := other
      cases accepts with
      | cons value rest =>
          obtain ⟨rfl, follows⟩ := head
          obtain ⟨_, acceptedToo, alikeHead⟩ := follows _ _ _ value
          obtain ⟨_, restToo, alikeRest⟩ := ih rest
          exact ⟨_, .cons acceptedToo restToo, .cons ⟨rfl, alikeHead⟩ alikeRest⟩

theorem AcceptsArgs.follow {args others : List Expr} {params : List Ty} {typed : List Typed}
    (alike : List.Forall₂ (Follows typing names scope scopeToo) args others)
    (accepts : typing.AcceptsArgs scope args params references typed final) :
    ∃ typedToo, typing.AcceptsArgs scopeToo others params references typedToo final ∧
      List.Forall₂ (Typed.Alike names) typed typedToo := by
  induction alike generalizing params references typed with
  | nil =>
      cases accepts with
      | nil => exact ⟨[], .nil, .nil⟩
  | cons head _ ih =>
      cases accepts with
      | cons arg fits rest =>
          obtain ⟨_, argToo, alikeHead⟩ := head _ _ _ arg
          obtain ⟨_, restToo, alikeRest⟩ := ih rest
          exact ⟨_, .cons argToo (fits.alike alikeHead) restToo, .cons alikeHead alikeRest⟩

/-- Names in scopes that are aligned stand for the same references, inside of bindings too. -/
theorem follows_of_alike {expr other : Expr} (alike : Expr.Alike names expr other)
    (aligns : names.Aligns scope scopeToo) : Follows typing names scope scopeToo expr other := by
  intro references typed final accepts
  induction alike generalizing scope scopeToo references typed final with
  | @symbol names name other maps =>
      cases accepts with
      | symbol found =>
          have same := (aligns name other maps).1
          exact ⟨_, .symbol (same.symm.trans found), .symbol maps⟩
  | constant =>
      cases accepts with
      | constant => exact ⟨_, .constant, .constant⟩
  | list length _ ih =>
      cases accepts with
      | list items =>
          obtain ⟨_, itemsToo, alikeItems⟩ := items.follow (List.forall₂_iff_zip.mpr
            ⟨length, fun inside => ih _ _ inside aligns⟩)
          exact ⟨_, .list itemsToo, .of_list alikeItems⟩
  | map length keys _ ih =>
      cases accepts with
      | map entries =>
          obtain ⟨_, entriesToo, alikeEntries⟩ := entries.follow (List.forall₂_iff_zip.mpr
            ⟨length, fun inside => ⟨keys _ _ inside, ih _ _ inside aligns⟩⟩)
          exact ⟨_, .map entriesToo, .of_map alikeEntries⟩
  | get _ ih =>
      generalize form : "get" = function at accepts
      cases accepts with
      | get labelled object own field =>
          obtain ⟨_, objectToo, alike⟩ := ih aligns _ _ _ object
          exact ⟨_, .get labelled objectToo (alike.reference ▸ own) field, .get alike⟩
      | call ordinary => cases form ▸ ordinary
  | @each names name nameToo _ _ _ _ _ _ ihCollection ihBody =>
      unfold Expr.each at accepts
      generalize form : "each" = function at accepts
      cases accepts with
      | each collection own item body =>
          obtain ⟨_, collectionToo, alike⟩ := ihCollection aligns _ _ _ collection
          obtain ⟨_, bodyToo, alikeBody⟩ := ihBody (aligns.cons name nameToo _) _ _ _ body
          exact ⟨_, .each collectionToo (alike.reference ▸ own) item bodyToo,
            .each alike alikeBody⟩
      | ifElse => simp at form
      | call ordinary => cases form ▸ ordinary
  | ifElse _ _ _ ihTest ihYes ihNo =>
      generalize form : "if" = function at accepts
      cases accepts with
      | ifElse test yes no =>
          obtain ⟨_, testToo, alikeTest⟩ := ihTest aligns _ _ _ test
          obtain ⟨_, yesToo, alikeYes⟩ := ihYes aligns _ _ _ yes
          obtain ⟨_, noToo, alikeNo⟩ := ihNo aligns _ _ _ no
          exact ⟨_, .ifElse testToo yesToo noToo, .ifElse alikeTest alikeYes alikeNo⟩
      | call ordinary => cases form ▸ ordinary
      | _ => simp at form
  | @ifSome names name nameToo _ _ _ _ _ _ _ _ _ ihBound ihYes ihNo =>
      unfold Expr.ifSome at accepts
      generalize form : "if_some" = function at accepts
      cases accepts with
      | ifSome bound own presents yes no =>
          obtain ⟨_, boundToo, alike⟩ := ihBound aligns _ _ _ bound
          obtain ⟨_, yesToo, alikeYes⟩ := ihYes (aligns.cons name nameToo _) _ _ _ yes
          obtain ⟨_, noToo, alikeNo⟩ := ihNo aligns _ _ _ no
          exact ⟨_, .ifSome boundToo (alike.reference ▸ own) presents yesToo noToo,
            .ifSome alike alikeYes alikeNo⟩
      | ifElse => simp at form
      | call ordinary => cases form ▸ ordinary
  | call ordinary length _ ih =>
      cases accepts with
      | call _ known args =>
          obtain ⟨_, argsToo, alikeArgs⟩ := args.follow (List.forall₂_iff_zip.mpr
            ⟨length, fun inside => ih _ _ inside aligns⟩)
          exact ⟨_, .call ordinary known argsToo, .of_call alikeArgs⟩
      | _ => cases ordinary

/-- What is accepted is accepted by other names too, with the same references. -/
theorem check_follows {roots : List (String × Ty)} {expr other : Expr} {checked : Checked}
    (accepted : typing.check roots expr = .ok checked) (alike : Expr.Alike [] expr other) :
    ∃ checkedToo, typing.check roots other = .ok checkedToo ∧
      checkedToo.references = checked.references ∧
      Typed.Alike [] checked.root checkedToo.root := by
  obtain ⟨rootToo, accepts, alikeRoot⟩ :=
    follows_of_alike alike .refl _ _ _ (check_eq_ok_iff.mp accepted)
  exact ⟨⟨rootToo, checked.references⟩, check_eq_ok_iff.mpr accepts, rfl, alikeRoot⟩

end Typing

/--
Bound names are only names. Where the variable of an `each` or an `if_some` is renamed to a name
that an accepted expression does not use, the outcome is accepted as well, has the same
requirements, and compiles to the same program, so that it takes as many slots and gives the same
value or error in every call.
-/
theorem Checked.rename_bound {typing : Typing} {roots : List (String × Ty)} {expr other : Expr}
    {new : String} {checked : Checked} (accepted : typing.check roots expr = .ok checked)
    (renames : expr.RenamesBound new other) (fresh : new ∉ expr.symbols) :
    ∃ checkedToo, typing.check roots other = .ok checkedToo ∧
      checkedToo.requirements typing.types = checked.requirements typing.types ∧
      ∀ options, ∃ program, checked.compile options = .ok program ∧
        checkedToo.compile options = .ok program := by
  have alike : Expr.Alike [] expr other :=
    (Typing.wellFormed_of_check accepted).alike_of_renamesBound renames fresh fun _ => rfl
  obtain ⟨checkedToo, acceptedToo, references, alikeRoot⟩ := Typing.check_follows accepted alike
  refine ⟨checkedToo, acceptedToo, ?_, fun options => ?_⟩
  · rw [Checked.requirements, Checked.requirements, references, alikeRoot.collect]
  · obtain ⟨program, compiled, _⟩ := Checked.compile_runs accepted options
    refine ⟨program, compiled, ?_⟩
    rw [← compiled, Checked.compile, Checked.compile, references, alikeRoot.compile .refl]

theorem Checked.rename_bound_shadowing : ∃ checked checkedToo other program,
    Typing.check ⟨.orders, []⟩ [("this", .named .type "Order"), ("bonus", .integer)] .shadowing =
      .ok checked ∧
    Expr.shadowing.RenamesBound "bonus" other ∧ "bonus" ∉ Expr.shadowing.symbols ∧
    other = .each "bonus" (.get (.symbol "this") "items")
      (.list [.get (.symbol "bonus") "price",
        .each "x" (.get (.symbol "bonus") "parts") (.get (.symbol "x") "price")]) ∧
    Typing.check ⟨.orders, []⟩ [("this", .named .type "Order"), ("bonus", .integer)] other =
      .ok checkedToo ∧
    checked.compile ["bonus"] = .ok program ∧ checkedToo.compile ["bonus"] = .ok program := by
  have accepted : Typing.check ⟨.orders, []⟩
    [("this", .named .type "Order"), ("bonus", .integer)] .shadowing = .ok _ := rfl
  have renames : Expr.shadowing.RenamesBound "bonus" _ := .each
  have fresh : "bonus" ∉ Expr.shadowing.symbols := by decide
  obtain ⟨checkedToo, acceptedToo, _, compiles⟩ := Checked.rename_bound accepted renames fresh
  obtain ⟨program, compiled, compiledToo⟩ := compiles ["bonus"]
  exact ⟨_, checkedToo, _, program, accepted, renames, fresh, rfl, acceptedToo, compiled,
    compiledToo⟩

end GraphQuery
