import GraphQuery.Proofs.Decimal.Numerals
import GraphQuery.Proofs.Expr.Pieces

/-!
Words that are read back as the leaves they are displayed for.
-/

namespace GraphQuery

namespace Token

variable {letters whole fraction : List Char}

theorem isNameChar_of_isDigit {c : Char} (digit : c.isDigit = true) : isNameChar c = true := by
  simp [isNameChar, digit]

theorem isNameChar_of_isName (name : isName letters = true) :
    letters ≠ [] ∧ ∀ c ∈ letters, isNameChar c = true := by
  cases letters with
  | nil => cases name
  | cons first rest =>
      obtain ⟨start, others⟩ := Bool.and_eq_true_iff.mp name
      refine ⟨List.cons_ne_nil first rest, List.forall_mem_cons.mpr ⟨?_, ?_⟩⟩
      · simp [isNameChar, start]
      · exact List.all_eq_true.mp others

theorem word?_of_number? {leaf : Leaf} (read : number? letters = some leaf) :
    word? letters = some leaf := by
  unfold word?
  split
  · next same => subst same; cases read
  · split
    · next same => subst same; cases read
    · split
      · next same => subst same; cases read
      · rw [read]

def signed (negative : Bool) (letters : List Char) : List Char :=
  if negative then '-' :: letters else letters

theorem takeWhile_isDigit {rest : List Char} (digits : ∀ c ∈ whole, c.isDigit = true)
    (stops : ∀ c, rest.head? = some c → c.isDigit = false) :
    (whole ++ rest).takeWhile Char.isDigit = whole ∧
      (whole ++ rest).dropWhile Char.isDigit = rest := by
  rw [List.takeWhile_append_of_pos digits, List.dropWhile_append_of_pos digits]
  cases rest with
  | nil => simp
  | cons c rest => simp [stops c rfl]

def unsigned? (negative : Bool) (letters : List Char) : Option Leaf :=
  match letters.takeWhile Char.isDigit, letters.dropWhile Char.isDigit with
  | [], _ => none
  | whole, [] =>
      some (.integer (if negative then -Decimal.numeral whole else Decimal.numeral whole))
  | whole, '.' :: fraction =>
      if !fraction.isEmpty && fraction.all Char.isDigit then
        some (.constant (.float (Decimal.read negative whole fraction)))
      else none
  | _, _ => none

theorem number?_signed (negative : Bool) (unsigned : letters.head? ≠ some '-') :
    number? (signed negative letters) = unsigned? negative letters := by
  cases negative with
  | true => rfl
  | false =>
      rw [signed, if_neg Bool.false_ne_true, number?]
      · rfl
      · rintro rest rfl
        exact unsigned rfl

def numberBefore? (negative : Bool) (whole : List Char) : List Char → Option Leaf
  | [] => some (.integer (if negative then -Decimal.numeral whole else Decimal.numeral whole))
  | '.' :: fraction =>
      if !fraction.isEmpty && fraction.all Char.isDigit then
        some (.constant (.float (Decimal.read negative whole fraction)))
      else none
  | _ => none

theorem number?_digits (negative : Bool) {rest : List Char} (filled : whole ≠ [])
    (digits : ∀ c ∈ whole, c.isDigit = true)
    (stops : ∀ c, rest.head? = some c → c.isDigit = false) :
    number? (signed negative (whole ++ rest)) = numberBefore? negative whole rest := by
  obtain ⟨taken, left⟩ := takeWhile_isDigit digits stops
  obtain ⟨c, others, rfl⟩ := List.exists_cons_of_ne_nil filled
  have unsigned : c ≠ '-' := by
    rintro rfl
    simp at digits
  rw [number?_signed negative (by simpa using unsigned), unsigned?, taken, left]
  unfold numberBefore?
  split
  · next same => cases same
  · rfl
  · rfl
  · next ended pointed _ =>
    split
    · exact (ended rfl).elim
    · exact (pointed _ rfl).elim
    · rfl

theorem number?_whole (negative : Bool) (filled : whole ≠ [])
    (digits : ∀ c ∈ whole, c.isDigit = true) : number? (signed negative whole) =
      some (.integer (if negative then -Decimal.numeral whole else Decimal.numeral whole)) := by
  have stops : ∀ c, ([] : List Char).head? = some c → c.isDigit = false := nofun
  simpa [numberBefore?] using number?_digits negative filled digits stops

theorem number?_decimal (negative : Bool) (filled : whole ≠ [])
    (digits : ∀ c ∈ whole, c.isDigit = true) (filledToo : fraction ≠ [])
    (digitsToo : ∀ c ∈ fraction, c.isDigit = true) :
    number? (signed negative (whole ++ '.' :: fraction)) =
      some (.constant (.float (Decimal.read negative whole fraction))) := by
  rw [number?_digits negative filled digits (by simp), numberBefore?, if_pos]
  simpa [filledToo] using digitsToo

/-! Words that are formed of characters of names -/

theorem formed_of_all (named : letters ≠ [] ∧ letters.all isNameChar = true) :
    (Piece.word letters).Formed :=
  ⟨named.1, List.all_eq_true.mp named.2⟩

theorem formed_of_digits (filled : letters ≠ []) (digits : ∀ c ∈ letters, c.isDigit = true) :
    (Piece.word letters).Formed :=
  ⟨filled, fun c inside => isNameChar_of_isDigit (digits c inside)⟩

theorem formed_signed (negative : Bool) (formed : (Piece.word letters).Formed) :
    (Piece.word (signed negative letters)).Formed := by
  cases negative with
  | true => exact ⟨List.cons_ne_nil '-' letters, List.forall_mem_cons.mpr ⟨by decide, formed.2⟩⟩
  | false => exact formed

/-! Integers and symbols -/

theorem integerText_eq (number : Int) : Decimal.integerText number =
    signed (decide (number < 0)) (Nat.toDigits 10 number.natAbs) := by
  simp [Decimal.integerText, signed]

theorem formed_integerText (number : Int) :
    (Piece.word (Decimal.integerText number)).Formed := by
  rw [integerText_eq]
  exact formed_signed _ (formed_of_digits Nat.toDigits_ne_nil (Decimal.isDigit_toDigits _))

theorem word?_integerText (number : Int) :
    word? (Decimal.integerText number) = some (.integer number) := by
  have digits := Decimal.isDigit_toDigits number.natAbs
  apply word?_of_number?
  rw [integerText_eq, number?_whole _ Nat.toDigits_ne_nil digits, Decimal.numeral_toDigits,
    Option.some_inj]
  congr 1
  simp only [decide_eq_true_eq]
  omega

theorem word?_of_symbolic (symbolic : Symbolic letters) :
    word? letters = some (.symbol (String.ofList letters)) := by
  have other := symbolic.constant
  simp only [List.mem_cons, List.not_mem_nil, or_false, not_or] at other
  rw [word?, if_neg other.1, if_neg other.2.1, if_neg other.2.2, symbolic.number]
  exact if_pos symbolic.name

end Token

namespace Expr

/-- The symbols of the expression can be told from constants, and its keywords are names. -/
structure Legible (expr : Expr) : Prop where
  symbols : ∀ name, .leaf (.symbol name) ∈ expr.tokens → Token.Symbolic name.toList
  keywords : ∀ name, .leaf (.constant (.keyword name)) ∈ expr.tokens →
    Token.isName name.toList = true

def Unlimited (token : Token) : Prop :=
  ∀ number, token ≠ .leaf (.constant (.integer number))

mutual

theorem unlimited_tokens : ∀ expr : Expr, ∀ token ∈ expr.tokens, Unlimited token
  | .symbol _ => List.forall_mem_singleton.mpr nofun
  | .constant atom => List.forall_mem_singleton.mpr (by cases atom <;> nofun)
  | .application head args => List.forall_mem_cons.mpr ⟨nofun, List.forall_mem_append.mpr
      ⟨unlimited_tokens head, List.forall_mem_append.mpr
        ⟨unlimited_tokensOfList args, List.forall_mem_singleton.mpr nofun⟩⟩⟩
  | .list items => List.forall_mem_cons.mpr ⟨nofun, List.forall_mem_append.mpr
      ⟨unlimited_tokensOfList items, List.forall_mem_singleton.mpr nofun⟩⟩
  | .map entries => List.forall_mem_cons.mpr ⟨nofun, List.forall_mem_append.mpr
      ⟨unlimited_tokensOfEntries entries, List.forall_mem_singleton.mpr nofun⟩⟩

theorem unlimited_tokensOfList : ∀ exprs : List Expr,
    ∀ token ∈ tokensOfList exprs, Unlimited token
  | [] => nofun
  | expr :: rest => List.forall_mem_append.mpr
      ⟨unlimited_tokens expr, unlimited_tokensOfList rest⟩

theorem unlimited_tokensOfEntries : ∀ entries : List (Expr × Expr),
    ∀ token ∈ tokensOfEntries entries, Unlimited token
  | [] => nofun
  | (key, value) :: rest => List.forall_mem_append.mpr
      ⟨unlimited_tokens key, List.forall_mem_append.mpr
        ⟨unlimited_tokens value, unlimited_tokensOfEntries rest⟩⟩

end

variable {expr : Expr}

/-- Whatever is no float is read back as it is. -/
theorem Legible.readsAs_self (legible : expr.Legible) {token : Token} (inside : token ∈ expr.tokens)
    (exact : ∀ number, token ≠ .leaf (.constant (.float number))) :
    token.piece.Formed ∧ token.ReadsAs token := by
  cases token with
  | opening bracket => cases bracket <;> exact ⟨rfl, rfl⟩
  | closing bracket => cases bracket <;> exact ⟨rfl, rfl⟩
  | leaf content =>
      cases content with
      | integer number =>
          refine ⟨Token.formed_integerText number, ?_⟩
          exact congrArg (Option.map _) (Token.word?_integerText number)
      | symbol name =>
          have symbolic := legible.symbols name inside
          refine ⟨Token.isNameChar_of_isName symbolic.name, ?_⟩
          rw [Token.ReadsAs, Token.piece, Piece.tokens?, Token.word?_of_symbolic symbolic]
          simp
      | constant atom =>
          cases atom with
          | nil => exact ⟨Token.formed_of_all (by decide), rfl⟩
          | boolean truth => cases truth <;> exact ⟨Token.formed_of_all (by decide), rfl⟩
          | integer number => exact (unlimited_tokens expr _ inside number rfl).elim
          | float number => exact (exact number rfl).elim
          | string text =>
              refine ⟨trivial, ?_⟩
              simp [Token.ReadsAs, Token.piece, Atom.piece, Piece.tokens?]
          | keyword name =>
              have named := legible.keywords name inside
              refine ⟨(Token.isNameChar_of_isName named).2, ?_⟩
              simp [Token.ReadsAs, Token.piece, Atom.piece, Piece.tokens?, Token.keyword?, named]

end Expr

end GraphQuery
