import GraphQuery.Expr.Printer
import GraphQuery.Proofs.Expr.Scanning

/-!
An expression in pieces, which are the tokens that it is displayed with and the spaces between them,
and the texts that come of pieces when layout is put around them.
-/

namespace GraphQuery

inductive Layout : List Char → Prop
  | nil : Layout []
  | blank {c rest} : Token.isLayout c = true → Layout rest → Layout (c :: rest)
  | comment {text rest} : '\n' ∉ text → Layout rest → Layout (';' :: (text ++ '\n' :: rest))

inductive Piece where
  | bracket (c : Char)
  | word (letters : List Char)
  | keyword (letters : List Char)
  | string (text : List Char)
  | space

namespace Piece

def text : Piece → List Char
  | bracket c => [c]
  | word letters => letters
  | keyword letters => ':' :: letters
  | string text => Text.quoted text
  | space => [' ']

def tokens? : Piece → Option (List Token)
  | bracket c => (Token.bracket? c).map fun token => [token]
  | word letters => (Token.word? letters).map fun leaf => [.leaf leaf]
  | keyword letters => (Token.keyword? letters).map fun leaf => [.leaf leaf]
  | string text => some [.leaf (.constant (.string (String.ofList text)))]
  | space => some []

def tokensOf? : List Piece → Option (List Token)
  | [] => some []
  | piece :: rest => piece.tokens?.bind fun tokens => (tokensOf? rest).map (tokens ++ ·)

def Formed : Piece → Prop
  | bracket c => (Token.bracket? c).isSome
  | word letters => letters ≠ [] ∧ ∀ c ∈ letters, Token.isNameChar c = true
  | keyword letters => ∀ c ∈ letters, Token.isNameChar c = true
  | _ => True

def Runs : Piece → Prop
  | word _ => True
  | keyword _ => True
  | _ => False

def Apart (pieces : List Piece) : Prop :=
  ∀ letters, pieces.head? ≠ some (word letters)

def Spaced : List Piece → Prop
  | [] => True
  | piece :: rest => (piece.Runs → Apart rest) ∧ Spaced rest

/-- A text in which layout stands around pieces, and some wherever there is a space. -/
inductive Laid : List Piece → List Char → Prop
  | done {gap} : Layout gap → Laid [] gap
  | space {gap pieces source} : Layout gap → gap ≠ [] → Laid pieces source →
      Laid (.space :: pieces) (gap ++ source)
  | token {gap piece pieces source} : Layout gap → piece ≠ .space → Laid pieces source →
      Laid (piece :: pieces) (gap ++ (piece.text ++ source))

variable {pieces others : List Piece} {source : List Char}

theorem laid_text (pieces : List Piece) : Laid pieces (pieces.flatMap text) := by
  induction pieces with
  | nil => exact .done .nil
  | cons piece rest ih =>
      by_cases space : piece = .space
      · subst space
        exact .space (.blank rfl .nil) (List.cons_ne_nil ' ' []) ih
      · exact .token .nil space ih

end Piece

/-! Scanning what is laid out -/

open Token (Scans Delimited)

namespace Layout

variable {gap source : List Char}

theorem scans {tokens? : Option (List Token)} (layout : Layout gap)
    (scans : Scans source tokens?) : Scans (gap ++ source) tokens? := by
  induction layout with
  | nil => exact scans
  | blank blank _ ih => exact ih.blank blank
  | comment line _ ih =>
      rw [List.cons_append, List.append_assoc, List.cons_append]
      exact ih.comment line

theorem delimited (layout : Layout gap) (delimited : gap = [] → Delimited source) :
    Delimited (gap ++ source) := by
  cases layout with
  | nil => exact delimited rfl
  | blank blank _ => exact Token.delimited_cons_iff.mpr (Token.isNameChar_of_isLayout blank)
  | comment _ _ => exact Token.delimited_cons_iff.mpr (by decide)

end Layout

namespace Piece

theorem Laid.delimited (laid : Laid pieces source) (formed : ∀ piece ∈ pieces, piece.Formed)
    (apart : Apart pieces) : Delimited source := by
  cases laid with
  | done layout => simpa using layout.delimited fun _ => Token.delimited_nil
  | space layout filled _ => exact layout.delimited fun empty => (filled empty).elim
  | @token gap piece pieces rest layout token laid =>
      refine layout.delimited fun _ => ?_
      have here := formed piece List.mem_cons_self
      cases piece with
      | bracket c =>
          obtain ⟨token, bracket⟩ := Option.isSome_iff_exists.mp here
          exact Token.delimited_cons_iff.mpr (Token.isNameChar_of_bracket? bracket)
      | word letters => exact (apart letters rfl).elim
      | keyword letters => exact Token.delimited_cons_iff.mpr (by decide)
      | string text => exact Token.delimited_cons_iff.mpr (by decide)
      | space => exact (token rfl).elim

/-- Pieces of which no word runs into the next are scanned one by one. -/
theorem Laid.scans (laid : Laid pieces source) (formed : ∀ piece ∈ pieces, piece.Formed)
    (spaced : Spaced pieces) : Scans source (tokensOf? pieces) := by
  induction laid with
  | done layout =>
      rw [tokensOf?]
      simpa using layout.scans Token.scans_nil
  | @space gap pieces source layout _ laid ih =>
      have same : tokensOf? (.space :: pieces) = tokensOf? pieces := by
        simp [tokensOf?, tokens?]
      rw [same]
      exact layout.scans (ih (fun piece inside => formed piece (.tail _ inside)) spaced.2)
  | @token gap piece pieces source layout token laid ih =>
      refine layout.scans ?_
      have formedRest : ∀ other ∈ pieces, other.Formed :=
        fun other inside => formed other (.tail _ inside)
      have rest := ih formedRest spaced.2
      have here := formed piece List.mem_cons_self
      cases piece with
      | bracket c =>
          obtain ⟨token, bracket⟩ := Option.isSome_iff_exists.mp here
          rw [tokensOf?, tokens?, bracket]
          exact rest.bracket bracket
      | word letters =>
          have delimited := laid.delimited formedRest (spaced.1 trivial)
          rw [tokensOf?, tokens?, Option.bind_map]
          exact rest.word here.1 here.2 delimited
      | keyword letters =>
          have delimited := laid.delimited formedRest (spaced.1 trivial)
          rw [tokensOf?, tokens?, Option.bind_map]
          exact rest.keyword here delimited
      | string text =>
          rw [tokensOf?, tokens?]
          exact rest.quoted text
      | space => exact (token rfl).elim

end Piece

end GraphQuery
