import GraphQuery.Proofs.Expr.Words
import GraphQuery.Proofs.Op.Program
import GraphQuery.Proofs.Query.Project
import GraphQuery.Proofs.Value.Equality
import GraphQuery.Value.Printer

/-!
Values as literals. What is displayed for a value without floats is an expression that every checker
accepts, and computing it gives the value back.
-/

namespace GraphQuery

namespace Value

mutual

def literal : Value → Expr
  | null => .constant .nil
  | boolean truth => .constant (.boolean truth)
  | integer number => .constant (.integer number)
  | float number => .constant (.float number)
  | string text => .constant (.string text)
  | list items => .list (itemLiterals items)
  | object entries => .map (entryLiterals entries)

def itemLiterals : List Value → List Expr
  | [] => []
  | item :: rest => literal item :: itemLiterals rest

def entryLiterals : List (String × Value) → List (Expr × Expr)
  | [] => []
  | (key, value) :: rest => (.keyword key, literal value) :: entryLiterals rest

end

def isNotFloat : Value → Bool
  | float _ => false
  | _ => true

def isFloatFree (value : Value) : Bool :=
  value.every isNotFloat

def hasNames : Value → Bool
  | object entries => (Entries.keys entries).all fun key => Token.isName key.toList
  | _ => true

def isNamed (value : Value) : Bool :=
  value.every hasNames

/-! What is displayed -/

mutual

theorem text_literal : ∀ value : Value, value.literal.text = value.text
  | null => rfl
  | boolean _ => rfl
  | integer _ => rfl
  | float _ => rfl
  | string _ => rfl
  | list items => by rw [literal, Expr.text, text, texts_itemLiterals items]
  | object entries => by rw [literal, Expr.text, text, entryTexts_entryLiterals entries]

theorem texts_itemLiterals : ∀ items : List Value,
    Expr.texts (itemLiterals items) = itemTexts items
  | [] => rfl
  | item :: rest => by
      rw [itemLiterals, Expr.texts, itemTexts, text_literal item, texts_itemLiterals rest]

theorem entryTexts_entryLiterals : ∀ entries : List (String × Value),
    Expr.entryTexts (entryLiterals entries) = entryTexts entries
  | [] => rfl
  | (key, value) :: rest => by
      rw [entryLiterals, Expr.entryTexts, entryTexts, text_literal value,
        entryTexts_entryLiterals rest]
      rfl

end

structure Literal (token : Token) : Prop where
  symbol : ∀ name, token ≠ .leaf (.symbol name)
  float : ∀ number, token ≠ .leaf (.constant (.float number))
  keyword : ∀ name, token = .leaf (.constant (.keyword name)) → Token.isName name.toList = true

theorem literal_of_keyword {key : String} (named : Token.isName key.toList = true) :
    Literal (.leaf (.constant (.keyword key))) := by
  refine ⟨nofun, nofun, ?_⟩
  rintro _ ⟨⟩
  exact named

theorem literal_opening (bracket : Bracket) : Literal (.opening bracket) := by
  constructor <;> intro _ same <;> cases same

theorem literal_closing (bracket : Bracket) : Literal (.closing bracket) := by
  constructor <;> intro _ same <;> cases same

theorem literal_list {items : List Value}
    (each : ∀ item ∈ items, ∀ token ∈ item.literal.tokens, Literal token) :
    ∀ token ∈ (list items).literal.tokens, Literal token := by
  have inner : ∀ token ∈ Expr.tokensOfList (itemLiterals items), Literal token := by
    induction items with
    | nil => exact fun token member => absurd member List.not_mem_nil
    | cons item rest ih =>
        obtain ⟨here, each⟩ := List.forall_mem_cons.mp each
        exact List.forall_mem_append.mpr ⟨here, ih each⟩
  exact List.forall_mem_cons.mpr ⟨literal_opening .square, List.forall_mem_append.mpr
    ⟨inner, List.forall_mem_singleton.mpr (literal_closing .square)⟩⟩

theorem literal_object {entries : List (String × Value)} (named : (object entries).hasNames = true)
    (each : ∀ entry ∈ entries, ∀ token ∈ entry.2.literal.tokens, Literal token) :
    ∀ token ∈ (object entries).literal.tokens, Literal token := by
  have keys : ∀ entry ∈ entries, Token.isName entry.1.toList = true := by
    simpa [hasNames, Entries.keys] using named
  have inner : ∀ token ∈ Expr.tokensOfEntries (entryLiterals entries), Literal token := by
    clear named
    induction entries with
    | nil => exact fun token member => absurd member List.not_mem_nil
    | cons entry rest ih =>
        obtain ⟨here, each⟩ := List.forall_mem_cons.mp each
        obtain ⟨key, keys⟩ := List.forall_mem_cons.mp keys
        exact List.forall_mem_append.mpr ⟨List.forall_mem_singleton.mpr (literal_of_keyword key),
          List.forall_mem_append.mpr ⟨here, ih each keys⟩⟩
  exact List.forall_mem_cons.mpr ⟨literal_opening .curly, List.forall_mem_append.mpr
    ⟨inner, List.forall_mem_singleton.mpr (literal_closing .curly)⟩⟩

theorem literal_tokens {value : Value} (exact : value.isFloatFree = true)
    (named : value.isNamed = true) : ∀ token ∈ value.literal.tokens, Literal token := by
  induction value using induct with
  | ofScalar value notList notObject =>
      cases value with
      | float number => cases exact
      | list items => cases notList
      | object entries => cases notObject
      | _ => exact List.forall_mem_singleton.mpr ⟨nofun, nofun, nofun⟩
  | ofList items ih =>
      have exactItems := (every_list_iff.mp exact).2
      have namedItems := (every_list_iff.mp named).2
      exact literal_list fun item member => ih item member (exactItems item member)
        (namedItems item member)
  | ofObject entries ih =>
      have exactEntries := (every_object_iff.mp exact).2
      obtain ⟨keys, namedEntries⟩ := every_object_iff.mp named
      exact literal_object keys fun entry member => ih entry member (exactEntries entry member)
        (namedEntries entry member)

/-- The display of a value is read as its literal. -/
theorem parse_display {value : Value} (exact : value.isFloatFree = true)
    (named : value.isNamed = true) : Expr.parse value.display = .ok value.literal := by
  have literal := literal_tokens exact named
  have legible : value.literal.Legible :=
    ⟨fun name inside => ((literal _ inside).symbol name rfl).elim,
      fun name inside => (literal _ inside).keyword name rfl⟩
  have reads : ∀ token ∈ value.literal.tokens, token.piece.Formed ∧ token.ReadsAs token :=
    fun token inside => legible.readsAs_self inside (literal token inside).float
  have laid := Expr.laid_display value.literal
  have shown : value.literal.display = value.display := congrArg String.ofList (text_literal value)
  rw [shown] at laid
  exact (Expr.parse_laid_iff (fun token inside => (reads token inside).1) laid).mpr
    (List.forall₂_same.mpr fun token inside => (reads token inside).2)

/-! What the literal comes to -/

section Checked

variable {typing : Typing} {scope : Scope} {references : References} {value : Value}
  {items : List Value} {entries : List (String × Value)}

/-- An expression is accepted without any reference being made for it, and what it is checked to
has a value that depends on nothing. -/
def Means (typing : Typing) (scope : Scope) (references : References) (expr : Expr)
    (value : Value) : Prop :=
  ∃ typed, typing.visit scope expr references = .ok (typed, references) ∧
    ∀ environment context bindings, typed.interpret environment context bindings = .ok value

theorem means_constant {atom : Atom} :
    Means typing scope references (.constant atom) atom.value := by
  refine ⟨.constant atom, by rw [Typing.visit], fun environment context bindings => ?_⟩
  rw [Typed.interpret]

theorem means_list (each : ∀ item ∈ items, Means typing scope references item.literal item) :
    Means typing scope references (list items).literal (list items) := by
  have inner : ∃ typed, typing.visitList scope (itemLiterals items) references =
      .ok (typed, references) ∧ ∀ environment context bindings,
        Typed.interpretList environment context typed bindings = .ok items := by
    induction items with
    | nil =>
        refine ⟨[], by rw [itemLiterals, Typing.visitList], fun environment context bindings => ?_⟩
        rw [Typed.interpretList]
    | cons item rest ih =>
        obtain ⟨⟨typed, visited, means⟩, each⟩ := List.forall_mem_cons.mp each
        obtain ⟨others, visitedRest, meansRest⟩ := ih each
        refine ⟨typed :: others, ?_, fun environment context bindings => ?_⟩
        · rw [itemLiterals, Typing.visitList, visited]
          simp only [ok_bind, visitedRest]
        · rw [Typed.interpretList, means, ok_bind, meansRest, ok_bind]
  obtain ⟨typed, visited, means⟩ := inner
  refine ⟨.list typed, ?_, fun environment context bindings => ?_⟩
  · rw [literal, Typing.visit, visited, ok_bind]
  · rw [Typed.interpret, means, ok_bind]

theorem means_object (nodup : (Entries.keys entries).Nodup)
    (each : ∀ entry ∈ entries, Means typing scope references entry.2.literal entry.2) :
    Means typing scope references (object entries).literal (object entries) := by
  have inner : ∃ typed, typing.visitEntries scope (entryLiterals entries) references =
      .ok (typed, references) ∧ ∀ environment context bindings,
        Typed.interpretEntries environment context typed bindings = .ok entries := by
    clear nodup
    induction entries with
    | nil =>
        refine ⟨[], by rw [entryLiterals, Typing.visitEntries],
          fun environment context bindings => ?_⟩
        rw [Typed.interpretEntries]
    | cons entry rest ih =>
        obtain ⟨key, value⟩ := entry
        obtain ⟨⟨typed, visited, means⟩, each⟩ := List.forall_mem_cons.mp each
        obtain ⟨others, visitedRest, meansRest⟩ := ih each
        refine ⟨(key, typed) :: others, ?_, fun environment context bindings => ?_⟩
        · rw [entryLiterals, Expr.keyword, Typing.visitEntries, visited]
          simp only [ok_bind, visitedRest]
        · rw [Typed.interpretEntries, means, ok_bind, meansRest, ok_bind]
  obtain ⟨typed, visited, means⟩ := inner
  refine ⟨.map typed, ?_, fun environment context bindings => ?_⟩
  · rw [literal, Typing.visit, visited, ok_bind]
  · rw [Typed.interpret, means, ok_bind, ofPairs, Entries.ofList_of_nodup nodup]

/-- A literal means its value, however deep lists and objects are nested in it. -/
theorem means_literal (keyed : value.isKeyed = true) :
    Means typing scope references value.literal value := by
  induction value using induct with
  | ofScalar value notList notObject =>
      cases value with
      | list items => cases notList
      | object entries => cases notObject
      | _ => exact means_constant
  | ofList items ih =>
      have keyedItems := (every_list_iff.mp keyed).2
      exact means_list fun item member => ih item member (keyedItems item member)
  | ofObject entries ih =>
      obtain ⟨once, keyedEntries⟩ := every_object_iff.mp keyed
      exact means_object (of_decide_eq_true once) fun entry member =>
        ih entry member (keyedEntries entry member)

end Checked

/--
Displayed values are literals: the display of a value without floats, whose objects have different
names of the expression language as keys, is read as an expression that every checker accepts, with
any roots. Compiled for any options, it gives the value itself in every call.
-/
theorem display_literal {value : Value} (keyed : value.isKeyed = true)
    (exact : value.isFloatFree = true) (named : value.isNamed = true) :
    ∃ expr, Expr.parse value.display = .ok expr ∧ ∀ (typing : Typing) (roots : List (String × Ty)),
      ∃ checked, typing.check roots expr = .ok checked ∧ ∀ options : List String,
        ∃ program, checked.compile options = .ok program ∧
          ∀ environment this context values, values.length = options.length →
            program.call environment this context values = .ok value := by
  refine ⟨value.literal, parse_display exact named, fun typing roots => ?_⟩
  obtain ⟨typed, visited, means⟩ := @means_literal typing (Typing.bindRoots roots).1
    (Typing.bindRoots roots).2 value keyed
  have accepted : typing.check roots value.literal = .ok ⟨typed, (Typing.bindRoots roots).2⟩ :=
    bind_eq_ok_iff.mpr ⟨_, visited, rfl⟩
  refine ⟨_, accepted, fun options => ?_⟩
  obtain ⟨program, compiled, runs⟩ := Checked.compile_runs accepted options
  refine ⟨program, compiled, fun environment this context values counted => ?_⟩
  rw [runs.call environment this context values counted]
  exact means environment context _

def lookalikes : Value :=
  .object [("nil", .list [.null, .integer Int64.minValue, .string "\"\\n\n"]),
    ("-1.5.", .object []), ("true", .boolean false)]

theorem display_literal_lookalikes : lookalikes.isKeyed = true ∧ lookalikes.isFloatFree = true ∧
    lookalikes.isNamed = true ∧ ∃ expr, Expr.parse
        "\x7b:nil [nil -9223372036854775808 \"\\\"\\\\n\\n\"] :-1.5. \x7b\x7d :true false\x7d" =
      .ok expr ∧ ∃ checked, Typing.check ⟨.empty, []⟩ [("nil", .any)] expr = .ok checked ∧
        ∃ program, checked.compile ["cut"] = .ok program ∧
          program.call [] .null .null [.integer 9] = .ok lookalikes := by
  have keyed : lookalikes.isKeyed = true := by decide
  have exact : lookalikes.isFloatFree = true := by decide
  have named : lookalikes.isNamed = true := by decide
  obtain ⟨expr, read, accepted⟩ := display_literal keyed exact named
  obtain ⟨checked, accepted, compiled⟩ := accepted ⟨.empty, []⟩ [("nil", .any)]
  obtain ⟨program, compiled, calls⟩ := compiled ["cut"]
  exact ⟨keyed, exact, named, expr, read, checked, accepted, program, compiled, calls _ _ _ _ rfl⟩

end Value

end GraphQuery
