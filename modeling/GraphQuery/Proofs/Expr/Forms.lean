import GraphQuery.Expr.Reader
import GraphQuery.Proofs.Except
import GraphQuery.Proofs.Expr.Scanning

/-!
Bracketed tokens and the forms that they are read as. The tokens of an expression come to a form of
that expression, whatever stands before and behind them, and a form of an expression has no other
tokens.
-/

namespace GraphQuery

def Atom.leaf : Atom → Leaf
  | .integer number => .integer number.toInt
  | atom => .constant atom

theorem Atom.expr_leaf (atom : Atom) (span : Text.Span) :
    atom.leaf.expr span = .ok (.constant atom) := by
  cases atom with
  | integer number =>
      rw [Atom.leaf, Leaf.expr, if_pos ⟨number.minValue_le_toInt, number.toInt_le⟩,
        Int64.ofInt_toInt]
  | _ => rfl

namespace Expr

mutual

def tokens : Expr → List Token
  | symbol name => [.leaf (.symbol name)]
  | constant atom => [.leaf atom.leaf]
  | application head args =>
      .opening .round :: (tokens head ++ (tokensOfList args ++ [.closing .round]))
  | list items => .opening .square :: (tokensOfList items ++ [.closing .square])
  | map entries => .opening .curly :: (tokensOfEntries entries ++ [.closing .curly])

def tokensOfList : List Expr → List Token
  | [] => []
  | expr :: rest => tokens expr ++ tokensOfList rest

def tokensOfEntries : List (Expr × Expr) → List Token
  | [] => []
  | (key, value) :: rest => tokens key ++ (tokens value ++ tokensOfEntries rest)

end

end Expr

theorem pairs?_flatMap {α : Type} (entries : List (α × α)) :
    pairs? (entries.flatMap fun entry => [entry.1, entry.2]) = some entries := by
  induction entries with
  | nil => rfl
  | cons entry rest ih =>
      rw [List.flatMap_cons, List.cons_append, List.cons_append, List.nil_append, pairs?, ih]
      rfl

namespace Form

theorem exprs_eq_mapM (forms : List Form) : exprs forms = forms.mapM expr := by
  induction forms with
  | nil => rfl
  | cons form rest ih =>
      rw [exprs, List.mapM_cons, ih]
      rfl

def ReadAs (placed : List PlacedToken) (exprs : List Expr) : Prop :=
  ∃ forms : List Form, List.Forall₂ (fun form found => form.expr = .ok found) forms exprs ∧
    ∀ opened before rest,
      readFrom opened before (placed ++ rest) = readFrom opened (forms.reverse ++ before) rest

namespace ReadAs

variable {placed others : List PlacedToken} {exprs more : List Expr} {first last : PlacedToken}

theorem nil : ReadAs [] [] :=
  ⟨[], .nil, fun _ _ _ => rfl⟩

theorem append (reads : ReadAs placed exprs) (readsToo : ReadAs others more) :
    ReadAs (placed ++ others) (exprs ++ more) := by
  obtain ⟨forms, came, read⟩ := reads
  obtain ⟨formsToo, cameToo, readToo⟩ := readsToo
  refine ⟨forms ++ formsToo, List.rel_append came cameToo, fun opened before rest => ?_⟩
  rw [List.append_assoc, read, readToo, List.reverse_append, List.append_assoc]

theorem leaf {content : Leaf} {span : Text.Span} {expr : Expr}
    (came : content.expr span = .ok expr) : ReadAs [⟨.leaf content, span⟩] [expr] :=
  ⟨[.leaf content span], .cons came .nil, fun _ _ _ => rfl⟩

/-- Tokens between brackets come to one form. -/
theorem bracketed {bracket : Bracket} {expr : Expr} (opens : first.token = .opening bracket)
    (closes : last.token = .closing bracket) (reads : ReadAs placed exprs)
    (makes : ∀ forms span, Form.exprs forms = .ok exprs →
      ∃ form, ofBracket? bracket forms span = some form ∧ form.expr = .ok expr) :
    ReadAs (first :: (placed ++ [last])) [expr] := by
  obtain ⟨forms, came, read⟩ := reads
  obtain ⟨token, firstSpan⟩ := first
  obtain ⟨tokenToo, lastSpan⟩ := last
  obtain rfl : token = .opening bracket := opens
  obtain rfl : tokenToo = .closing bracket := closes
  obtain ⟨form, made, whole⟩ := makes forms ⟨firstSpan.first, lastSpan.stop⟩
    ((exprs_eq_mapM forms).trans (mapM_eq_ok_iff.mpr came))
  refine ⟨[form], .cons whole .nil, fun opened before rest => ?_⟩
  rw [List.cons_append, List.append_assoc, readFrom, read, List.append_nil, List.singleton_append,
    readFrom]
  simp only [if_true, List.reverse_reverse, made]
  rfl

end ReadAs

mutual

theorem readAs_tokens : ∀ (expr : Expr) (placed : List PlacedToken),
    placed.map PlacedToken.token = expr.tokens → ReadAs placed [expr]
  | .symbol name, placed, same => by
      obtain ⟨⟨_, span⟩, rfl, rfl⟩ := List.map_eq_singleton_iff.mp same
      exact .leaf rfl
  | .constant atom, placed, same => by
      obtain ⟨⟨_, span⟩, rfl, rfl⟩ := List.map_eq_singleton_iff.mp same
      exact .leaf (atom.expr_leaf span)
  | .application head args, placed, same => by
      obtain ⟨first, _, rfl, opens, same⟩ := List.map_eq_cons_iff.mp same
      obtain ⟨placedHead, _, rfl, sameHead, same⟩ := List.map_eq_append_iff.mp same
      obtain ⟨placedArgs, _, rfl, sameArgs, same⟩ := List.map_eq_append_iff.mp same
      obtain ⟨last, rfl, closes⟩ := List.map_eq_singleton_iff.mp same
      have reads := (readAs_tokens head placedHead sameHead).append
        (readAs_tokensOfList args placedArgs sameArgs)
      rw [← List.append_assoc]
      refine .bracketed opens closes reads fun forms span came => ?_
      cases forms with
      | nil => cases came
      | cons form forms =>
          obtain ⟨found, cameHead, came⟩ := bind_eq_ok_iff.mp came
          obtain ⟨others, cameArgs, made⟩ := bind_eq_ok_iff.mp came
          obtain ⟨rfl, rfl⟩ := List.cons.inj (Except.ok.inj made)
          refine ⟨_, rfl, ?_⟩
          rw [Form.expr, cameHead, cameArgs]
          rfl
  | .list items, placed, same => by
      obtain ⟨first, _, rfl, opens, same⟩ := List.map_eq_cons_iff.mp same
      obtain ⟨placedItems, _, rfl, sameItems, same⟩ := List.map_eq_append_iff.mp same
      obtain ⟨last, rfl, closes⟩ := List.map_eq_singleton_iff.mp same
      refine .bracketed opens closes (readAs_tokensOfList items placedItems sameItems)
        fun forms span came => ⟨_, rfl, ?_⟩
      rw [Form.expr, came]
      rfl
  | .map entries, placed, same => by
      obtain ⟨first, _, rfl, opens, same⟩ := List.map_eq_cons_iff.mp same
      obtain ⟨placedEntries, _, rfl, sameEntries, same⟩ := List.map_eq_append_iff.mp same
      obtain ⟨last, rfl, closes⟩ := List.map_eq_singleton_iff.mp same
      refine .bracketed opens closes (readAs_tokensOfEntries entries placedEntries sameEntries)
        fun forms span came => ⟨_, rfl, ?_⟩
      rw [Form.expr, came, ok_bind, pairs?_flatMap]

theorem readAs_tokensOfList : ∀ (exprs : List Expr) (placed : List PlacedToken),
    placed.map PlacedToken.token = Expr.tokensOfList exprs → ReadAs placed exprs
  | [], placed, same => by
      obtain rfl := List.map_eq_nil_iff.mp same
      exact .nil
  | expr :: rest, placed, same => by
      obtain ⟨placedFirst, placedRest, rfl, sameFirst, sameRest⟩ := List.map_eq_append_iff.mp same
      exact (readAs_tokens expr placedFirst sameFirst).append
        (readAs_tokensOfList rest placedRest sameRest)

theorem readAs_tokensOfEntries : ∀ (entries : List (Expr × Expr)) (placed : List PlacedToken),
    placed.map PlacedToken.token = Expr.tokensOfEntries entries →
    ReadAs placed (entries.flatMap fun entry => [entry.1, entry.2])
  | [], placed, same => by
      obtain rfl := List.map_eq_nil_iff.mp same
      exact .nil
  | (key, value) :: rest, placed, same => by
      obtain ⟨placedKey, _, rfl, sameKey, same⟩ := List.map_eq_append_iff.mp same
      obtain ⟨placedValue, placedRest, rfl, sameValue, sameRest⟩ :=
        List.map_eq_append_iff.mp same
      exact (readAs_tokens key placedKey sameKey).append
        ((readAs_tokens value placedValue sameValue).append
          (readAs_tokensOfEntries rest placedRest sameRest))

end

/-- The tokens of an expression are one form, and the form is that expression. -/
theorem ofTokens?_tokens {expr : Expr} {placed : List PlacedToken}
    (same : placed.map PlacedToken.token = expr.tokens) :
    ∃ form, ofTokens? placed = some form ∧ form.expr = .ok expr := by
  obtain ⟨forms, came, read⟩ := readAs_tokens expr placed same
  obtain ⟨form, _, here, rest, rfl⟩ := List.forall₂_cons_right_iff.mp came
  obtain rfl := List.forall₂_nil_right_iff.mp rest
  have whole := read [] [] []
  rw [List.append_nil] at whole
  refine ⟨form, ?_, here⟩
  rw [ofTokens?, whole]
  rfl

end Form

/-! From forms back to tokens -/

namespace Form

mutual

def tokens : Form → List Token
  | leaf content _ => [.leaf content]
  | application head args =>
      .opening .round :: (tokens head ++ (tokensOfList args ++ [.closing .round]))
  | list items => .opening .square :: (tokensOfList items ++ [.closing .square])
  | map items _ => .opening .curly :: (tokensOfList items ++ [.closing .curly])

def tokensOfList : List Form → List Token
  | [] => []
  | form :: rest => tokens form ++ tokensOfList rest

end

def tokensBefore : List Opened → List Token
  | [] => []
  | innermost :: outer =>
      tokensBefore outer ++ (tokensOfList innermost.before.reverse ++ [.opening innermost.bracket])

variable {form : Form} {forms before : List Form} {placed : List PlacedToken}

theorem tokensOfList_append (forms others : List Form) :
    tokensOfList (forms ++ others) = tokensOfList forms ++ tokensOfList others := by
  induction forms with
  | nil => rfl
  | cons form rest ih => rw [List.cons_append, tokensOfList, ih, tokensOfList, List.append_assoc]

theorem tokensOfList_reverse_cons : tokensOfList (form :: before).reverse =
    tokensOfList before.reverse ++ form.tokens := by
  simp [tokensOfList_append, tokensOfList]

theorem tokens_of_ofBracket? {bracket : Bracket} {span : Text.Span}
    (made : ofBracket? bracket forms span = some form) :
    form.tokens = .opening bracket :: (tokensOfList forms ++ [.closing bracket]) := by
  cases bracket with
  | round =>
      cases forms with
      | nil => cases made
      | cons head args =>
          cases made
          simp [tokens, tokensOfList]
  | square => cases made; rfl
  | curly => cases made; rfl

theorem tokens_of_readFrom {opened : List Opened}
    (read : readFrom opened before placed = some forms) :
    tokensOfList forms = tokensBefore opened ++
      (tokensOfList before.reverse ++ placed.map PlacedToken.token) := by
  induction placed generalizing opened before with
  | nil =>
      cases opened with
      | nil =>
          obtain rfl : before.reverse = forms := Option.some.inj read
          simp [tokensBefore]
      | cons innermost outer => cases read
  | cons first rest ih =>
      obtain ⟨token, span⟩ := first
      cases token with
      | leaf content =>
          rw [ih read, tokensOfList_reverse_cons]
          simp [tokens]
      | opening bracket =>
          rw [ih read]
          simp [tokensBefore, tokensOfList]
      | closing bracket =>
          cases opened with
          | nil => cases read
          | cons innermost outer =>
              rw [readFrom] at read
              split at read
              · next same =>
                obtain ⟨form, made, onward⟩ := Option.bind_eq_some_iff.mp read
                subst same
                rw [ih onward, tokensOfList_reverse_cons, tokens_of_ofBracket? made]
                simp [tokensBefore]
              · cases read

theorem tokens_of_ofTokens? (read : ofTokens? placed = some form) :
    form.tokens = placed.map PlacedToken.token := by
  rw [ofTokens?] at read
  split at read
  · next found readAll =>
    cases read
    simpa [tokensOfList, tokensBefore] using tokens_of_readFrom readAll
  · cases read

theorem eq_flatMap_of_pairs? {α : Type} : ∀ {items : List α} {entries : List (α × α)},
    pairs? items = some entries → items = entries.flatMap fun entry => [entry.1, entry.2]
  | [], _, paired => by
      cases paired
      rfl
  | key :: value :: rest, _, paired => by
      obtain ⟨others, pairedRest, rfl⟩ := Option.map_eq_some_iff.mp paired
      rw [eq_flatMap_of_pairs? pairedRest]
      rfl

theorem tokensOfEntries_eq (entries : List (Expr × Expr)) : Expr.tokensOfEntries entries =
    Expr.tokensOfList (entries.flatMap fun entry => [entry.1, entry.2]) := by
  induction entries with
  | nil => rfl
  | cons entry rest ih =>
      rw [Expr.tokensOfEntries, ih]
      rfl

theorem tokens_of_leaf {content : Leaf} {span : Text.Span} {expr : Expr}
    (written : Token.Written (.leaf content)) (came : content.expr span = .ok expr) :
    expr.tokens = [.leaf content] := by
  cases content with
  | symbol name =>
      cases came
      rfl
  | integer number =>
      rw [Leaf.expr] at came
      split at came
      · next within =>
        cases came
        have small : number < 2 ^ 63 := Int.lt_of_le_of_lt within.2 (by decide)
        rw [Expr.tokens, Atom.leaf, Int64.toInt_ofInt_of_le within.1 small]
      · cases came
  | constant atom =>
      cases came
      cases atom with
      | integer number => exact (Token.not_written_integer number written).elim
      | _ => rfl

mutual

theorem tokens_of_expr : ∀ (form : Form) {expr : Expr},
    (∀ token ∈ form.tokens, token.Written) → form.expr = .ok expr → expr.tokens = form.tokens
  | .leaf content span, expr, written, came =>
      tokens_of_leaf (written _ List.mem_cons_self) came
  | .application head args, expr, written, came => by
      obtain ⟨foundHead, cameHead, came⟩ := bind_eq_ok_iff.mp came
      obtain ⟨foundArgs, cameArgs, came⟩ := bind_eq_ok_iff.mp came
      cases came
      have same := tokens_of_expr head
        (fun token inside => written token (.tail _ (List.mem_append_left _ inside))) cameHead
      have sameArgs := tokens_of_exprs args
        (fun token inside => written token
          (.tail _ (List.mem_append_right _ (List.mem_append_left _ inside)))) cameArgs
      rw [Expr.tokens, tokens, same, sameArgs]
  | .list items, expr, written, came => by
      obtain ⟨foundItems, cameItems, came⟩ := bind_eq_ok_iff.mp came
      cases came
      have same := tokens_of_exprs items
        (fun token inside => written token (.tail _ (List.mem_append_left _ inside))) cameItems
      rw [Expr.tokens, tokens, same]
  | .map items span, expr, written, came => by
      obtain ⟨foundItems, cameItems, came⟩ := bind_eq_ok_iff.mp came
      split at came
      · next entries paired =>
        cases came
        have same := tokens_of_exprs items
          (fun token inside => written token (.tail _ (List.mem_append_left _ inside))) cameItems
        rw [Expr.tokens, tokens, tokensOfEntries_eq, ← eq_flatMap_of_pairs? paired, same]
      · cases came

theorem tokens_of_exprs : ∀ (forms : List Form) {found : List Expr},
    (∀ token ∈ tokensOfList forms, token.Written) → exprs forms = .ok found →
    Expr.tokensOfList found = tokensOfList forms
  | [], found, _, came => by
      cases came
      rfl
  | form :: rest, found, written, came => by
      obtain ⟨first, cameFirst, came⟩ := bind_eq_ok_iff.mp came
      obtain ⟨others, cameRest, came⟩ := bind_eq_ok_iff.mp came
      cases came
      have same := tokens_of_expr form
        (fun token inside => written token (List.mem_append_left _ inside)) cameFirst
      have sameRest := tokens_of_exprs rest
        (fun token inside => written token (List.mem_append_right _ inside)) cameRest
      rw [Expr.tokensOfList, tokensOfList, same, sameRest]

end

end Form

namespace Expr

/-- A text is read as an expression exactly if its tokens are the tokens of that expression. -/
theorem parse_eq_ok_iff {source : String} {expr : Expr} : parse source = .ok expr ↔
    (Token.scan? source.toList).map (List.map PlacedToken.token) = some expr.tokens := by
  rw [parse, parseChars]
  cases scanned : Token.scan? source.toList with
  | none => simp
  | some placed =>
      rw [Option.bind_some, Option.map_some, Option.some_inj]
      constructor
      · intro read
        split at read
        · next form formed =>
          have written : ∀ token ∈ form.tokens, token.Written := by
            simpa [Form.tokens_of_ofTokens? formed] using Token.written_of_scanFrom scanned
          rw [Form.tokens_of_expr form written read, Form.tokens_of_ofTokens? formed]
        · cases read
      · intro same
        obtain ⟨form, formed, came⟩ := Form.ofTokens?_tokens same
        rw [formed]
        exact came

end Expr

end GraphQuery
