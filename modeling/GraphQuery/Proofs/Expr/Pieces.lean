import GraphQuery.Proofs.Expr.Forms
import GraphQuery.Proofs.Expr.Layout

/-!
Expressions in pieces: one for each token, and a space between any two tokens but behind a bracket
that opens and before one that closes. These are the pieces that an expression is displayed in, and
read in any layout they come back as what the single tokens come back as.
-/

namespace GraphQuery

def Bracket.first : Bracket → Char
  | round => '('
  | square => '['
  | curly => '\x7b'

def Bracket.last : Bracket → Char
  | round => ')'
  | square => ']'
  | curly => '\x7d'

def Atom.piece : Atom → Piece
  | string text => .string text.toList
  | keyword name => .keyword name.toList
  | atom => .word atom.text

namespace Token

def piece : Token → Piece
  | .opening bracket => .bracket bracket.first
  | .closing bracket => .bracket bracket.last
  | .leaf (.symbol name) => .word name.toList
  | .leaf (.constant atom) => atom.piece
  | .leaf (.integer number) => .word (Decimal.integerText number)

def opens : Token → Bool
  | .opening _ => true
  | _ => false

def closes : Token → Bool
  | .closing _ => true
  | _ => false

def piecesOf (free : Bool) : List Token → List Piece
  | [] => []
  | token :: rest =>
      (if free || token.closes then [] else [.space]) ++ token.piece :: piecesOf token.opens rest

def ReadsAs (token other : Token) : Prop :=
  token.piece.tokens? = some [other]

variable {tokens others : List Token}

theorem apart_piecesOf (tokens : List Token) : Piece.Apart (piecesOf false tokens) := by
  intro letters
  cases tokens with
  | nil => nofun
  | cons token rest =>
      cases token with
      | closing bracket => simp [piecesOf, closes, piece]
      | _ => simp [piecesOf, closes]

theorem opens_of_runs {token : Token} (runs : token.piece.Runs) : token.opens = false := by
  cases token with
  | opening bracket => exact runs.elim
  | _ => rfl

theorem spaced_piecesOf (free : Bool) (tokens : List Token) :
    Piece.Spaced (piecesOf free tokens) := by
  induction tokens generalizing free with
  | nil => trivial
  | cons token rest ih =>
      have spaced : Piece.Spaced (token.piece :: piecesOf token.opens rest) := by
        refine ⟨fun runs => ?_, ih token.opens⟩
        rw [opens_of_runs runs]
        exact apart_piecesOf rest
      rw [piecesOf]
      split
      · exact spaced
      · exact ⟨False.elim, spaced⟩

theorem formed_of_mem_piecesOf (formed : ∀ token ∈ tokens, token.piece.Formed) (free : Bool) :
    ∀ piece ∈ piecesOf free tokens, piece.Formed := by
  induction tokens generalizing free with
  | nil => nofun
  | cons token rest ih =>
      obtain ⟨here, formed⟩ := List.forall_mem_cons.mp formed
      intro piece inside
      rw [piecesOf, List.mem_append, List.mem_cons] at inside
      rcases inside with between | rfl | later
      · split at between
        · cases between
        · obtain rfl := List.mem_singleton.mp between
          trivial
      · exact here
      · exact ih formed token.opens piece later

theorem tokens?_space_append (free : Bool) (pieces : List Piece) :
    Piece.tokensOf? ((if free then [] else [.space]) ++ pieces) = Piece.tokensOf? pieces := by
  cases free with
  | true => rfl
  | false => simp [Piece.tokensOf?, Piece.tokens?]

theorem piece_ne_space (token : Token) : token.piece ≠ .space := by
  cases token with
  | leaf content =>
      cases content with
      | constant atom => cases atom <;> nofun
      | _ => nofun
  | _ => nofun

/-- A token is read back as one token, or not at all. -/
theorem eq_singleton_of_tokens? {token : Token} {found : List Token}
    (read : token.piece.tokens? = some found) : ∃ other, found = [other] := by
  have solid := token.piece_ne_space
  cases shown : token.piece with
  | space => exact (solid shown).elim
  | string text =>
      rw [shown] at read
      cases read
      exact ⟨_, rfl⟩
  | _ =>
      rw [shown] at read
      obtain ⟨other, _, rfl⟩ := Option.map_eq_some_iff.mp read
      exact ⟨_, rfl⟩

theorem tokensOf?_piecesOf_iff (free : Bool) :
    Piece.tokensOf? (piecesOf free tokens) = some others ↔ List.Forall₂ ReadsAs tokens others := by
  induction tokens generalizing free others with
  | nil => simp [piecesOf, Piece.tokensOf?, eq_comm]
  | cons token rest ih =>
      rw [piecesOf, tokens?_space_append, Piece.tokensOf?, Option.bind_eq_some_iff,
        List.forall₂_cons_left_iff]
      constructor
      · rintro ⟨found, read, came⟩
        obtain ⟨other, rfl⟩ := eq_singleton_of_tokens? read
        obtain ⟨later, readRest, rfl⟩ := Option.map_eq_some_iff.mp came
        exact ⟨other, later, read, (ih token.opens).mp readRest, rfl⟩
      · rintro ⟨other, later, read, readRest, rfl⟩
        refine ⟨[other], read, ?_⟩
        rw [(ih token.opens).mpr readRest]
        rfl

end Token

namespace Expr

open Token (piecesOf)

def pieces (expr : Expr) : List Piece :=
  piecesOf true expr.tokens

theorem spaced_eq (text : List Char) (texts : List (List Char)) :
    Text.spaced (text :: texts) = text ++ texts.flatMap (' ' :: ·) := by
  induction texts generalizing text with
  | nil => simp [Text.spaced, Text.joined]
  | cons next rest ih =>
      rw [Text.spaced, Text.joined, ← Text.spaced, ih, List.flatMap_cons]
      · simp
      · simp

def shown (free : Bool) (tokens : List Token) : List Char :=
  (piecesOf free tokens).flatMap Piece.text

theorem shown_opening (free : Bool) (bracket : Bracket) (rest : List Token) :
    shown free (.opening bracket :: rest) =
      (if free then [] else [' ']) ++ bracket.first :: shown true rest := by
  cases free <;> rfl

theorem shown_closing (free : Bool) (bracket : Bracket) (rest : List Token) :
    shown free (.closing bracket :: rest) = bracket.last :: shown false rest := by
  cases free <;> rfl

theorem shown_leaf (free : Bool) (content : Leaf) (rest : List Token) :
    shown free (.leaf content :: rest) = (if free then [] else [' ']) ++
      ((Token.leaf content).piece.text ++ shown false rest) := by
  cases free <;> rfl

theorem text_piece_leaf (atom : Atom) : (Token.leaf atom.leaf).piece.text = atom.text := by
  cases atom <;> rfl

/-- The brackets of an expression stand right around what they hold. -/
theorem shown_bracketed (free : Bool) (bracket : Bracket) {inner rest : List Token}
    {text : List Char} (same : ∀ rest, shown true (inner ++ .closing bracket :: rest) =
      text ++ bracket.last :: shown false rest) :
    shown free (.opening bracket :: (inner ++ [.closing bracket]) ++ rest) =
      (if free then [] else [' ']) ++
        (bracket.first :: (text ++ [bracket.last]) ++ shown false rest) := by
  rw [List.cons_append, List.append_assoc, List.singleton_append, shown_opening, same]
  simp

mutual

theorem shown_tokens : ∀ (expr : Expr) (free : Bool) (rest : List Token),
    shown free (expr.tokens ++ rest) =
      (if free then [] else [' ']) ++ (expr.text ++ shown false rest)
  | .symbol name, free, rest => by
      rw [tokens, List.singleton_append, shown_leaf]
      rfl
  | .constant atom, free, rest => by
      rw [tokens, List.singleton_append, shown_leaf, text_piece_leaf]
      rfl
  | .application head args, free, rest => by
      rw [tokens, ← List.append_assoc]
      refine shown_bracketed free .round fun rest => ?_
      rw [List.append_assoc, shown_tokens head, shown_tokensOfList args, shown_closing, spaced_eq]
      simp
  | .list [], free, rest => shown_bracketed free .square fun rest => shown_closing true _ rest
  | .list (item :: items), free, rest => by
      refine shown_bracketed free .square fun rest => ?_
      rw [tokensOfList, List.append_assoc, shown_tokens item, shown_tokensOfList items,
        shown_closing, texts, spaced_eq]
      simp
  | .map [], free, rest => shown_bracketed free .curly fun rest => shown_closing true _ rest
  | .map ((key, value) :: entries), free, rest => by
      refine shown_bracketed free .curly fun rest => ?_
      rw [tokensOfEntries, List.append_assoc, List.append_assoc, shown_tokens key,
        shown_tokens value, shown_tokensOfEntries entries, shown_closing, entryTexts, spaced_eq]
      simp

theorem shown_tokensOfList : ∀ (exprs : List Expr) (rest : List Token),
    shown false (tokensOfList exprs ++ rest) =
      (texts exprs).flatMap (' ' :: ·) ++ shown false rest
  | [], rest => rfl
  | expr :: others, rest => by
      rw [tokensOfList, List.append_assoc, shown_tokens expr, shown_tokensOfList others, texts]
      simp

theorem shown_tokensOfEntries : ∀ (entries : List (Expr × Expr)) (rest : List Token),
    shown false (tokensOfEntries entries ++ rest) =
      (entryTexts entries).flatMap (' ' :: ·) ++ shown false rest
  | [], rest => rfl
  | (key, value) :: others, rest => by
      rw [tokensOfEntries, List.append_assoc, List.append_assoc, shown_tokens key,
        shown_tokens value, shown_tokensOfEntries others, entryTexts]
      simp

end

theorem flatMap_text_pieces (expr : Expr) : expr.pieces.flatMap Piece.text = expr.text := by
  simpa [shown, pieces, piecesOf] using shown_tokens expr true []

theorem laid_display (expr : Expr) : Piece.Laid expr.pieces expr.display.toList := by
  simpa [display, flatMap_text_pieces] using Piece.laid_text expr.pieces

/-- Laid out in any way, what is displayed for an expression is read as another expression exactly
if each of its tokens is read as the other's. -/
theorem parse_laid_iff {expr other : Expr} {source : String}
    (formed : ∀ token ∈ expr.tokens, token.piece.Formed)
    (laid : Piece.Laid expr.pieces source.toList) :
    parse source = .ok other ↔ List.Forall₂ Token.ReadsAs expr.tokens other.tokens := by
  have scans := laid.scans (Token.formed_of_mem_piecesOf formed true)
    (Token.spaced_piecesOf true expr.tokens)
  rw [parse_eq_ok_iff, Token.scan?, scans, pieces, Token.tokensOf?_piecesOf_iff]

end Expr

end GraphQuery
