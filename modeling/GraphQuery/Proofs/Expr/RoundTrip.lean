import GraphQuery.Proofs.Expr.Floats

/-!
What is displayed is read back. No layout that is put around the tokens of a displayed expression
changes what they are read as, as long as some stands where the display has a space. Only floats
that are displayed with an exponent are not read back.
-/

namespace GraphQuery.Expr

/-- An expression without floats is read back from its display, in any layout. -/
theorem parse_laid {expr : Expr} (legible : expr.Legible)
    (exact : ∀ number, .leaf (.constant (.float number)) ∉ expr.tokens) :
    (∀ source : String, Piece.Laid expr.pieces source.toList → parse source = .ok expr) ∧
      parse expr.display = .ok expr := by
  have reads : ∀ token ∈ expr.tokens, token.piece.Formed ∧ token.ReadsAs token := by
    intro token inside
    apply legible.readsAs_self inside
    rintro number rfl
    exact exact number inside
  have back : ∀ source : String, Piece.Laid expr.pieces source.toList → parse source = .ok expr :=
    fun source laid => (parse_laid_iff (fun token inside => (reads token inside).1) laid).mpr
      (List.forall₂_same.mpr fun token inside => (reads token inside).2)
  exact ⟨back, back expr.display expr.laid_display⟩

def lookalikes : Expr :=
  .application (.symbol "nil?")
    [.symbol "-1.5.", .constant (.string "\"\n"), .constant (.integer Int64.minValue)]

theorem parse_laid_lookalikes :
    parse "; (\n(nil?,-1.5.\t\r\"\\\"\\n\"\n-9223372036854775808 )" = .ok lookalikes := by
  have legible : lookalikes.Legible := by
    refine ⟨fun name inside => ?_, fun name inside => ?_⟩
    · simp [lookalikes, tokens, tokensOfList, Atom.leaf] at inside
      rcases inside with rfl | rfl
      · exact ⟨by decide, by decide, by rfl⟩
      · exact ⟨by decide, by decide, by rfl⟩
    · simp [lookalikes, tokens, tokensOfList, Atom.leaf] at inside
  have exact : ∀ number, .leaf (.constant (.float number)) ∉ lookalikes.tokens := by
    simp [lookalikes, tokens, tokensOfList, Atom.leaf]
  have shown : lookalikes.pieces = [.bracket '(', .word "nil?".toList, .space,
      .word "-1.5.".toList, .space, .string "\"\n".toList, .space,
      .word "-9223372036854775808".toList, .bracket ')'] := by
    rfl
  refine (parse_laid legible exact).1 _ ?_
  rw [shown]
  have blank := fun c (layout : Token.isLayout c = true) => @Layout.blank c [] layout .nil
  exact .token (@Layout.comment [' ', '('] [] (by decide) .nil) (by simp) <|
    .token .nil (by simp) <| .space (blank ',' rfl) (by simp) <|
    .token .nil (by simp) <| .space (@Layout.blank '\t' ['\r'] rfl (blank '\r' rfl)) (by simp) <|
    .token .nil (by simp) <| .space (blank '\n' rfl) (by simp) <|
    .token .nil (by simp) <| .token (blank ' ' rfl) (by simp) (.done .nil)

/-! Trees that count as equal -/

def FloatToo (found token : Token) : Prop :=
  ∀ x, token = .leaf (.constant (.float x)) → ∃ y, found = .leaf (.constant (.float y))

theorem floatToo_of_beq : ∀ {found atom : Atom}, (found == atom) = true →
    FloatToo (.leaf found.leaf) (.leaf atom.leaf)
  | found, .float x, same => by
      cases found with
      | float y => exact fun _ _ => ⟨y, rfl⟩
      | _ => cases same
  | _, .nil, _ => nofun
  | _, .boolean _, _ => nofun
  | _, .integer _, _ => nofun
  | _, .string _, _ => nofun
  | _, .keyword _, _ => nofun

mutual

theorem forall₂_tokens_of_beq : ∀ {found expr : Expr}, found.beq expr = true →
    List.Forall₂ FloatToo found.tokens expr.tokens
  | .symbol _, .symbol _, _ => .cons nofun .nil
  | .constant _, .constant _, same => .cons (floatToo_of_beq same) .nil
  | .application _ _, .application _ _, same => by
      obtain ⟨sameHead, sameArgs⟩ := Bool.and_eq_true_iff.mp same
      exact .cons nofun (List.rel_append (forall₂_tokens_of_beq sameHead)
        (List.rel_append (forall₂_tokensOfList_of_beq sameArgs) (.cons nofun .nil)))
  | .list _, .list _, same =>
      .cons nofun (List.rel_append (forall₂_tokensOfList_of_beq same) (.cons nofun .nil))
  | .map _, .map _, same =>
      .cons nofun (List.rel_append (forall₂_tokensOfEntries_of_beq same) (.cons nofun .nil))

theorem forall₂_tokensOfList_of_beq : ∀ {found exprs : List Expr}, sameList found exprs = true →
    List.Forall₂ FloatToo (tokensOfList found) (tokensOfList exprs)
  | [], [], _ => .nil
  | _ :: _, _ :: _, same => by
      obtain ⟨sameFirst, sameRest⟩ := Bool.and_eq_true_iff.mp same
      exact List.rel_append (forall₂_tokens_of_beq sameFirst) (forall₂_tokensOfList_of_beq sameRest)

theorem forall₂_tokensOfEntries_of_beq : ∀ {found entries : List (Expr × Expr)},
    samePairs found entries = true →
    List.Forall₂ FloatToo (tokensOfEntries found) (tokensOfEntries entries)
  | [], [], _ => .nil
  | (_, _) :: _, (_, _) :: _, same => by
      obtain ⟨sameEntry, sameRest⟩ := Bool.and_eq_true_iff.mp same
      obtain ⟨sameKey, sameValue⟩ := Bool.and_eq_true_iff.mp sameEntry
      exact List.rel_append (forall₂_tokens_of_beq sameKey)
        (List.rel_append (forall₂_tokens_of_beq sameValue)
          (forall₂_tokensOfEntries_of_beq sameRest))

end

theorem beq_self_atom {atom : Atom} (number : ∀ x, atom = .float x → x.isNaN = false) :
    (atom == atom) = true := by
  cases atom with
  | float x => simp [BEq.beq, instBEqAtom.beq, Binary64.beq, number x rfl]
  | _ => simp [BEq.beq, instBEqAtom.beq]

mutual

theorem beq_self : ∀ expr : Expr,
    (∀ x, .leaf (.constant (.float x)) ∈ expr.tokens → x.isNaN = false) → expr.beq expr = true
  | .symbol name, _ => beq_self_eq_true name
  | .constant atom, number => beq_self_atom fun x same => by
      subst same
      exact number x (List.mem_singleton_self _)
  | .application head args, number => by
      have same := beq_self head fun x inside =>
        number x (.tail _ (List.mem_append_left _ inside))
      have sameArgs := sameList_self args fun x inside =>
        number x (.tail _ (List.mem_append_right _ (List.mem_append_left _ inside)))
      rw [Expr.beq, same, sameArgs, Bool.and_self]
  | .list items, number => sameList_self items fun x inside =>
      number x (.tail _ (List.mem_append_left _ inside))
  | .map entries, number => samePairs_self entries fun x inside =>
      number x (.tail _ (List.mem_append_left _ inside))

theorem sameList_self : ∀ exprs : List Expr,
    (∀ x, .leaf (.constant (.float x)) ∈ tokensOfList exprs → x.isNaN = false) →
      sameList exprs exprs = true
  | [], _ => rfl
  | expr :: rest, number => by
      have same := beq_self expr fun x inside => number x (List.mem_append_left _ inside)
      have sameRest := sameList_self rest fun x inside => number x (List.mem_append_right _ inside)
      rw [sameList, same, sameRest, Bool.and_self]

theorem samePairs_self : ∀ entries : List (Expr × Expr),
    (∀ x, .leaf (.constant (.float x)) ∈ tokensOfEntries entries → x.isNaN = false) →
      samePairs entries entries = true
  | [], _ => rfl
  | (key, value) :: rest, number => by
      have sameKey := beq_self key fun x inside => number x (List.mem_append_left _ inside)
      have sameValue := beq_self value fun x inside =>
        number x (List.mem_append_right _ (List.mem_append_left _ inside))
      have sameRest := samePairs_self rest fun x inside =>
        number x (List.mem_append_right _ (List.mem_append_right _ inside))
      rw [samePairs, sameKey, sameValue, sameRest, Bool.and_self, Bool.and_self]

end

/-! What is parsed -/

theorem legible_of_parse {source : String} {expr : Expr} (read : parse source = .ok expr) :
    expr.Legible := by
  obtain ⟨placed, scanned, same⟩ := Option.map_eq_some_iff.mp (parse_eq_ok_iff.mp read)
  have written : ∀ token ∈ expr.tokens, token.Written := by
    rw [← same]
    simpa using Token.written_of_scanFrom scanned
  refine ⟨fun name inside => ?_, fun name inside => ?_⟩
  · obtain ⟨letters, word⟩ | ⟨letters, keyword⟩ | ⟨text, string⟩ := written _ inside
    · obtain ⟨symbolic, rfl⟩ := Token.symbolic_of_word? word
      exact symbolic
    · cases (Token.eq_of_keyword? keyword).1
    · cases string
  · obtain ⟨letters, word⟩ | ⟨letters, keyword⟩ | ⟨text, string⟩ := written _ inside
    · obtain same | ⟨_, same⟩ | ⟨_, same, _⟩ := Token.constant_of_word? word <;> cases same
    · obtain ⟨same, named⟩ := Token.eq_of_keyword? keyword
      cases same
      simpa using named
    · cases string

theorem mem_of_forall₂ {α β : Type} {related : α → β → Prop} {alike : β → α → Prop}
    {items : List α} {others : List β} (first : List.Forall₂ related items others)
    (second : List.Forall₂ alike others items) :
    ∀ item ∈ items, ∃ other, related item other ∧ alike other item := by
  induction first with
  | nil => nofun
  | @cons item other items others here _ ih =>
      cases second with
      | cons hereToo laterToo =>
          exact List.forall_mem_cons.mpr ⟨⟨other, here, hereToo⟩, ih laterToo⟩

/-- An expression that was parsed is read back from its display as an equal one exactly if each of
its floats is zero or has a size from `0.0001` on and below `10000000000000000`. -/
theorem display_read_back_iff {source : String} {expr : Expr} (read : parse source = .ok expr) :
    (∃ again, parse expr.display = .ok again ∧ (again == expr) = true) ↔
      ∀ x, .leaf (.constant (.float x)) ∈ expr.tokens → x.Positional := by
  have legible := legible_of_parse read
  have formed : ∀ token ∈ expr.tokens, token.piece.Formed := by
    intro token inside
    by_cases float : ∃ x, token = .leaf (.constant (.float x))
    · obtain ⟨x, rfl⟩ := float
      exact Token.formed_text x
    · exact (legible.readsAs_self inside fun x same => float ⟨x, same⟩).1
  constructor
  · rintro ⟨again, back, same⟩ x inside
    have reads := (parse_laid_iff formed expr.laid_display).mp back
    obtain ⟨found, reads, float⟩ := mem_of_forall₂ reads (forall₂_tokens_of_beq same) _ inside
    obtain ⟨y, rfl⟩ := float x rfl
    by_contra exponential
    have none := Token.number?_text_eq_none exponential
    obtain ⟨leaf, word, single⟩ := Option.map_eq_some_iff.mp reads
    cases single
    obtain same | ⟨_, same⟩ | ⟨_, _, number⟩ := Token.constant_of_word? word
    · cases same
    · cases same
    · cases none.symm.trans number
  · intro positional
    refine ⟨expr, (parse_laid_iff formed expr.laid_display).mpr ?_, ?_⟩
    · refine List.forall₂_same.mpr fun token inside => ?_
      by_cases float : ∃ x, token = .leaf (.constant (.float x))
      · obtain ⟨x, rfl⟩ := float
        have word := Token.word?_of_number? (Token.number?_text (positional x inside))
        exact congrArg (Option.map _) word
      · exact (legible.readsAs_self inside fun x same => float ⟨x, same⟩).2
    · apply beq_self
      intro x inside
      have finite : x.biasedExponent ≠ 2047 := fun maximal =>
        Binary64.not_positional_of_maximal maximal (positional x inside)
      simp [Binary64.isNaN, finite]

def smallFloats : Expr :=
  .list [.constant (.float ⟨0xbf1a36e2eb1c432d⟩), .constant (.float ⟨0x8000000000000000⟩)]

theorem display_read_back_smallFloats : parse "[-0.00010 -0.0]" = .ok smallFloats ∧
    ∃ again, parse smallFloats.display = .ok again ∧ (again == smallFloats) = true := by
  have read : parse "[-0.00010 -0.0]" = .ok smallFloats := rfl
  refine ⟨read, (display_read_back_iff read).mpr fun x inside => ?_⟩
  obtain rfl | rfl : x = ⟨0xbf1a36e2eb1c432d⟩ ∨ x = ⟨0x8000000000000000⟩ := by
    simpa [smallFloats, tokens, tokensOfList, Atom.leaf] using inside
  · have significand : (Binary64.mk 0xbf1a36e2eb1c432d).significand = 7378697629483821 := rfl
    have exponent : (Binary64.mk 0xbf1a36e2eb1c432d).exponent = -66 := rfl
    rw [Binary64.Positional, Binary64.magnitude, significand, exponent]
    norm_num
  · exact .inl rfl

/-- Behind a digit an exponent makes a word that is no token, and behind a minus a symbol. -/
theorem display_not_read_back :
    (∃ expr, parse "10000000000000000.0" = .ok expr ∧ parse expr.display = .error .grammar) ∧
      ∃ expr again, parse "-0.00001" = .ok expr ∧ parse expr.display = .ok again ∧
        (again == expr) = false :=
  ⟨⟨_, rfl, rfl⟩, _, .symbol "-1e-5", rfl, rfl, rfl⟩

end GraphQuery.Expr
