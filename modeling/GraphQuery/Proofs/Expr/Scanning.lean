import GraphQuery.Expr.Token

/-!
What stands at the beginning of a source text and what is read there. A word ends where a character
follows that no name has, so that the tokens before and after it can be read apart.
-/

namespace GraphQuery.Token

/-- Read from a place between tokens on, a text has the given tokens, wherever in a source it
stands; or it has no tokens at all. -/
def Scans (source : List Char) (tokens? : Option (List Token)) : Prop :=
  ∀ position, (scanFrom .between position source).map (List.map PlacedToken.token) = tokens?

def Delimited (source : List Char) : Prop :=
  ∀ c, source.head? = some c → isNameChar c = false

variable {source rest letters : List Char} {tokens? : Option (List Token)} {c : Char}

theorem delimited_nil : Delimited [] := nofun

theorem delimited_cons_iff : Delimited (c :: rest) ↔ isNameChar c = false := by
  simp [Delimited]

theorem bracket?_of_isLayout (layout : isLayout c = true) : bracket? c = none := by
  simp only [isLayout, Bool.or_eq_true, beq_iff_eq] at layout
  rcases layout with (((rfl | rfl) | rfl) | rfl) | rfl <;> rfl

theorem isNameChar_of_isLayout (layout : isLayout c = true) : isNameChar c = false := by
  simp only [isLayout, Bool.or_eq_true, beq_iff_eq] at layout
  rcases layout with (((rfl | rfl) | rfl) | rfl) | rfl <;> decide

theorem isNameChar_of_bracket? {token : Token} (bracket : bracket? c = some token) :
    isNameChar c = false := by
  unfold bracket? at bracket
  split at bracket
  all_goals first | decide | cases bracket

/-- A character of a word starts a word. -/
theorem start?_of_isNameChar (letter : isNameChar c = true) (position : Text.Position) :
    start? position c = some ([], .word position [c]) := by
  have unbracketed : bracket? c = none := by
    cases bracket : bracket? c with
    | none => rfl
    | some token => simp [isNameChar_of_bracket? bracket] at letter
  have visible : isLayout c = false := by
    cases layout : isLayout c with
    | false => rfl
    | true => simp [isNameChar_of_isLayout layout] at letter
  have apart : c ≠ ';' ∧ c ≠ '"' ∧ c ≠ ':' := by
    refine ⟨?_, ?_, ?_⟩ <;> rintro rfl <;> simp [isNameChar, isNameStart] at letter
  simp [start?, unbracketed, visible, apart, letter]

theorem scanFrom_cons {state next : State} {position : Text.Position} {tokens : List PlacedToken}
    (step : step? state position c = some (tokens, next)) :
    scanFrom state position (c :: rest) =
      (scanFrom next (position.after c) rest).map (tokens ++ ·) := by
  simp only [scanFrom, step, Option.bind_eq_bind, Option.bind_some, Option.map_eq_bind]
  rfl

/-! One thing at the beginning of a text -/

theorem scans_nil : Scans [] (some []) :=
  fun _ => rfl

namespace Scans

theorem bracket {token : Token} (scans : Scans rest tokens?) (bracket : bracket? c = some token) :
    Scans (c :: rest) (tokens?.map (token :: ·)) := by
  intro position
  have step : step? .between position c =
      some ([⟨token, position, position.after c⟩], .between) := by
    simp [step?, start?, bracket]
  rw [scanFrom_cons step, ← scans (position.after c), Option.map_map, Option.map_map]
  rfl

theorem blank (scans : Scans rest tokens?) (layout : isLayout c = true) :
    Scans (c :: rest) tokens? := by
  intro position
  have step : step? .between position c = some ([], .between) := by
    simp [step?, start?, bracket?_of_isLayout layout, layout]
  rw [scanFrom_cons step, ← scans (position.after c), Option.map_map]
  rfl

theorem comment {text : List Char} (scans : Scans rest tokens?) (line : '\n' ∉ text) :
    Scans (';' :: (text ++ '\n' :: rest)) tokens? := by
  have inside : ∀ position, (scanFrom .comment position (text ++ '\n' :: rest)).map
      (List.map PlacedToken.token) = tokens? := by
    induction text with
    | nil =>
        intro position
        rw [List.nil_append, scanFrom_cons (show step? .comment position '\n' = _ from rfl),
          ← scans (position.after '\n'), Option.map_map]
        rfl
    | cons c text ih =>
        intro position
        simp only [List.mem_cons, not_or] at line
        have step : step? .comment position c = some ([], .comment) := by
          simp [step?, Ne.symm line.1]
        rw [List.cons_append, scanFrom_cons step, ← ih line.2 (position.after c), Option.map_map]
        rfl
  intro position
  rw [scanFrom_cons (show step? .between position ';' = _ from rfl),
    ← inside (position.after ';'), Option.map_map]
  rfl

end Scans

/-! Words and keywords -/

structure Collects (state : List Char → State) (first : Text.Position)
    (leaf? : List Char → Option Leaf) : Prop where
  letter : ∀ letters position c, isNameChar c = true →
    step? (state letters) position c = some ([], state (c :: letters))
  stop : ∀ letters position c, isNameChar c = false →
    step? (state letters) position c = (finish? (state letters) position).bind fun complete =>
      (start? position c).bind fun started => some (complete ++ started.1, started.2)
  finish : ∀ letters position, finish? (state letters) position =
    (leaf? letters.reverse).map fun leaf => [⟨.leaf leaf, first, position⟩]

theorem collects_word (first : Text.Position) : Collects (.word first) first word? := by
  refine ⟨fun letters position c letter => by simp [step?, letter],
    fun letters position c other => ?_, fun _ _ => rfl⟩
  simp only [step?, other, Bool.false_eq_true, if_false, Option.bind_eq_bind]

theorem collects_keyword (first : Text.Position) :
    Collects (.keyword first) first keyword? := by
  refine ⟨fun letters position c letter => by simp [step?, letter],
    fun letters position c other => ?_, fun _ _ => rfl⟩
  simp only [step?, other, Bool.false_eq_true, if_false, Option.bind_eq_bind]

/-- The letters up to where a word ends are read as one leaf, or not at all. -/
theorem Collects.scanFrom {state : List Char → State} {first : Text.Position}
    {leaf? : List Char → Option Leaf} (collects : Collects state first leaf?)
    (scans : Scans rest tokens?) (delimited : Delimited rest)
    (letters : ∀ c ∈ source, isNameChar c = true) (before : List Char)
    (position : Text.Position) :
    (scanFrom (state before) position (source ++ rest)).map (List.map PlacedToken.token) =
      (leaf? (before.reverse ++ source)).bind fun leaf => tokens?.map (.leaf leaf :: ·) := by
  induction source generalizing before position with
  | cons c source ih =>
      obtain ⟨letter, letters⟩ := List.forall_mem_cons.mp letters
      rw [List.cons_append, scanFrom_cons (collects.letter before position c letter)]
      have onward := ih letters (c :: before) (position.after c)
      rw [List.reverse_cons, List.append_assoc, List.singleton_append] at onward
      rw [← onward, Option.map_map]
      rfl
  | nil =>
      rw [List.nil_append, List.append_nil]
      cases rest with
      | nil =>
          rw [← scans position, Token.scanFrom, collects.finish]
          cases leaf? before.reverse <;> rfl
      | cons c rest =>
          have other := delimited_cons_iff.mp delimited
          rw [← scans position, Token.scanFrom, collects.stop before position c other,
            collects.finish]
          cases leaf? before.reverse with
          | none => rfl
          | some leaf =>
              simp only [Token.scanFrom, step?, Option.map_some, Option.bind_some,
                Option.bind_eq_bind]
              cases start? position c with
              | none => rfl
              | some started =>
                  simp only [Option.bind_some]
                  cases Token.scanFrom started.2 (position.after c) rest <;> simp

namespace Scans

theorem word (scans : Scans rest tokens?) (begun : letters ≠ [])
    (named : ∀ c ∈ letters, isNameChar c = true) (delimited : Delimited rest) :
    Scans (letters ++ rest)
      ((word? letters).bind fun leaf => tokens?.map (.leaf leaf :: ·)) := by
  intro position
  obtain ⟨c, letters, rfl⟩ := List.exists_cons_of_ne_nil begun
  obtain ⟨letter, named⟩ := List.forall_mem_cons.mp named
  have step : step? .between position c = some ([], .word position [c]) :=
    start?_of_isNameChar letter position
  rw [List.cons_append, scanFrom_cons step, Option.map_map]
  exact (collects_word position).scanFrom scans delimited named [c] (position.after c)

theorem keyword (scans : Scans rest tokens?) (named : ∀ c ∈ letters, isNameChar c = true)
    (delimited : Delimited rest) : Scans (':' :: (letters ++ rest))
      ((keyword? letters).bind fun leaf => tokens?.map (.leaf leaf :: ·)) := by
  intro position
  rw [scanFrom_cons (show step? .between position ':' = _ from rfl), Option.map_map]
  exact (collects_keyword position).scanFrom scans delimited named [] (position.after ':')

end Scans

/-! Quoted text -/

theorem escape_cases (c : Char) :
    (∃ letter, Text.escape c = ['\\', letter] ∧ Text.unescape? letter = some c) ∨
      (Text.escape c = [c] ∧ c ≠ '"' ∧ c ≠ '\\') := by
  unfold Text.escape
  split
  · exact .inl ⟨'"', rfl, rfl⟩
  · exact .inl ⟨'\\', rfl, rfl⟩
  · exact .inl ⟨'n', rfl, rfl⟩
  · exact .inl ⟨'t', rfl, rfl⟩
  · exact .inr ⟨rfl, by assumption, by assumption⟩

theorem scanFrom_escaped (scans : Scans rest tokens?) (text before : List Char)
    (first position : Text.Position) :
    (scanFrom (.string first before) position (text.flatMap Text.escape ++ '"' :: rest)).map
      (List.map PlacedToken.token) = tokens?.map
        (.leaf (.constant (.string (String.ofList (before.reverse ++ text)))) :: ·) := by
  induction text generalizing before position with
  | nil =>
      rw [List.flatMap_nil, List.nil_append, List.append_nil,
        scanFrom_cons (show step? (.string first before) position '"' = _ from rfl),
        ← scans (position.after '"'), Option.map_map, Option.map_map]
      rfl
  | cons c text ih =>
      have whole : before.reverse ++ c :: text = (c :: before).reverse ++ text := by simp
      rw [List.flatMap_cons, List.append_assoc, whole]
      rcases escape_cases c with ⟨letter, escaped, stands⟩ | ⟨escaped, unquoted, plain⟩
      · have step : ∀ position, step? (.escape first before) position letter =
            some ([], .string first (c :: before)) := by
          simp [step?, stands]
        rw [escaped, List.cons_append, List.cons_append, List.nil_append,
          scanFrom_cons (show step? (.string first before) position '\\' = _ from rfl),
          scanFrom_cons (step _), ← ih (c :: before) _, Option.map_map, Option.map_map]
        rfl
      · have step : step? (.string first before) position c =
            some ([], .string first (c :: before)) := by
          simp [step?, unquoted, plain]
        rw [escaped, List.singleton_append, scanFrom_cons step, ← ih (c :: before) _,
          Option.map_map]
        rfl

theorem Scans.quoted (scans : Scans rest tokens?) (text : List Char) :
    Scans (Text.quoted text ++ rest)
      (tokens?.map (.leaf (.constant (.string (String.ofList text))) :: ·)) := by
  intro position
  rw [Text.quoted, List.cons_append, List.append_assoc, List.singleton_append,
    scanFrom_cons (show step? .between position '"' = _ from rfl), Option.map_map]
  exact scanFrom_escaped scans text [] position (position.after '"')

/-! What is scanned -/

def Written : Token → Prop
  | .leaf content => (∃ letters, word? letters = some content) ∨
      (∃ letters, keyword? letters = some content) ∨ ∃ text, content = .constant (.string text)
  | _ => True

theorem number?_cases {leaf : Leaf} (read : number? letters = some leaf) :
    (∃ number, leaf = .integer number) ∨ ∃ negative whole fraction,
      leaf = .constant (.float (Decimal.read negative whole fraction)) := by
  unfold number? at read
  split at read
  split at read
  · cases read
  · exact .inl ⟨_, (Option.some.inj read).symm⟩
  · split at read
    · exact .inr ⟨_, _, _, (Option.some.inj read).symm⟩
    · cases read
  · cases read

structure Symbolic (letters : List Char) : Prop where
  name : isName letters = true
  constant : letters ∉ ["nil".toList, "true".toList, "false".toList]
  number : number? letters = none

theorem word?_cases {leaf : Leaf} (read : word? letters = some leaf) :
    leaf = .constant .nil ∨ (∃ truth, leaf = .constant (.boolean truth)) ∨
      number? letters = some leaf ∨ leaf = .symbol (String.ofList letters) ∧ Symbolic letters := by
  unfold word? at read
  repeat' split at read
  · cases read
    exact .inl rfl
  · cases read
    exact .inr (.inl ⟨true, rfl⟩)
  · cases read
    exact .inr (.inl ⟨false, rfl⟩)
  · next number => exact .inr (.inr (.inl (number.trans read)))
  · next notNil notTrue notFalse _ number name =>
    refine .inr (.inr (.inr ⟨(Option.some.inj read).symm, name, ?_, number⟩))
    simp only [List.mem_cons, List.not_mem_nil, or_false, not_or]
    exact ⟨notNil, notTrue, notFalse⟩
  · cases read

theorem symbolic_of_word? {name : String} (read : word? letters = some (.symbol name)) :
    Symbolic letters ∧ letters = name.toList := by
  obtain same | ⟨_, same⟩ | number | ⟨same, symbolic⟩ := word?_cases read
  · cases same
  · cases same
  · obtain ⟨_, same⟩ | ⟨_, _, _, same⟩ := number?_cases number <;> cases same
  · cases same
    exact ⟨symbolic, by simp⟩

theorem constant_of_word? {atom : Atom} (read : word? letters = some (.constant atom)) :
    atom = .nil ∨ (∃ truth, atom = .boolean truth) ∨
      ∃ number, atom = .float number ∧ number? letters = some (.constant (.float number)) := by
  obtain same | ⟨truth, same⟩ | number | ⟨same, _⟩ := word?_cases read
  · cases same
    exact .inl rfl
  · cases same
    exact .inr (.inl ⟨truth, rfl⟩)
  · obtain ⟨_, same⟩ | ⟨_, _, _, same⟩ := number?_cases number
    · cases same
    · cases same
      exact .inr (.inr ⟨_, rfl, number⟩)
  · cases same

theorem eq_of_keyword? {leaf : Leaf} (read : keyword? letters = some leaf) :
    leaf = .constant (.keyword (String.ofList letters)) ∧ isName letters = true := by
  unfold keyword? at read
  split at read
  · next named => exact ⟨(Option.some.inj read).symm, named⟩
  · cases read

/-- An integer is written as one whose size is not limited. -/
theorem not_written_integer (number : Int64) :
    ¬ Written (.leaf (.constant (.integer number))) := by
  rintro (⟨letters, word⟩ | ⟨letters, keyword⟩ | ⟨text, string⟩)
  · obtain same | ⟨_, same⟩ | ⟨_, same, _⟩ := constant_of_word? word <;> cases same
  · cases (eq_of_keyword? keyword).1
  · cases string

section Written

variable {state next : State} {position : Text.Position} {placed : List PlacedToken}

theorem written_of_bracket? {token : Token} (bracket : bracket? c = some token) :
    token.Written := by
  unfold bracket? at bracket
  split at bracket <;> cases bracket <;> trivial

theorem written_of_finish? (finished : finish? state position = some placed) :
    ∀ piece ∈ placed, piece.token.Written := by
  cases state with
  | word first letters =>
      obtain ⟨leaf, read, rfl⟩ := Option.map_eq_some_iff.mp finished
      simpa using .inl ⟨_, read⟩
  | keyword first letters =>
      obtain ⟨leaf, read, rfl⟩ := Option.map_eq_some_iff.mp finished
      simpa using .inr (.inl ⟨_, read⟩)
  | between => cases finished; simp
  | comment => cases finished; simp
  | _ => cases finished

theorem written_of_start? (started : start? position c = some (placed, next)) :
    ∀ piece ∈ placed, piece.token.Written := by
  unfold start? at started
  split at started
  case _ token bracket =>
    cases started
    simpa using written_of_bracket? bracket
  case _ =>
    repeat' split at started
    all_goals cases started
    all_goals simp

theorem written_of_step? (stepped : step? state position c = some (placed, next)) :
    ∀ piece ∈ placed, piece.token.Written := by
  have ended : ∀ {state}, ((finish? state position).bind fun complete =>
      (start? position c).bind fun started => some (complete ++ started.1, started.2)) =
        some (placed, next) → ∀ piece ∈ placed, piece.token.Written := by
    intro state stepped piece inside
    obtain ⟨complete, finished, stepped⟩ := Option.bind_eq_some_iff.mp stepped
    obtain ⟨⟨tokens, _⟩, started, stepped⟩ := Option.bind_eq_some_iff.mp stepped
    cases stepped
    rcases List.mem_append.mp inside with before | behind
    · exact written_of_finish? finished piece before
    · exact written_of_start? started piece behind
  cases state with
  | between => exact written_of_start? stepped
  | comment => cases stepped; simp
  | word first letters =>
      rw [step?] at stepped
      split at stepped
      · cases stepped; simp
      · exact ended stepped
  | keyword first letters =>
      rw [step?] at stepped
      split at stepped
      · cases stepped; simp
      · exact ended stepped
  | string first letters =>
      rw [step?] at stepped
      repeat' split at stepped
      · cases stepped
        simpa using .inr (.inr ⟨_, rfl⟩)
      all_goals cases stepped
      all_goals simp
  | escape first letters =>
      obtain ⟨letter, _, same⟩ := Option.map_eq_some_iff.mp stepped
      cases same
      simp

theorem written_of_scanFrom (scanned : scanFrom state position source = some placed) :
    ∀ piece ∈ placed, piece.token.Written := by
  induction source generalizing state position placed with
  | nil => exact written_of_finish? scanned
  | cons c source ih =>
      obtain ⟨⟨tokens, next⟩, stepped, scanned⟩ := Option.bind_eq_some_iff.mp scanned
      obtain ⟨others, onward, scanned⟩ := Option.bind_eq_some_iff.mp scanned
      cases scanned
      intro piece inside
      rcases List.mem_append.mp inside with here | later
      · exact written_of_step? stepped piece here
      · exact ih onward piece later

end Written

end GraphQuery.Token
