import PropSat.Proofs.Grammar.Prefixes

/-!
# Faults of texts

A reader gets stuck at the first place at which the partial derivation cannot go on as the text
does.  What it has read by then can be completed to a formula, and what follows cannot belong to
one.  What is said to be due could stand there, unless a text ends where an operand is due while
parentheses are open: their end is asked for first, although the operand is missing before it.
-/

namespace PropSat

/-- Number of bytes of a text that a fault leaves in order.  A parenthesis that closes none is
reported one byte early. -/
def SyntaxFault.reach (fault : SyntaxFault) : Nat :=
  if fault.expected = .character '(' then fault.position + 1 else fault.position

/-- Whether a text is a token of the kind that was expected. -/
def Expectation.Admits : Expectation → String → Prop
  | expression, text => SourceName text
  | connective, text => ∃ connective : Connective, text = connective.symbol
  | character needed, text => text = needed.toString

namespace Connective

theorem symbol_ne_nil (connective : Connective) : connective.symbol.toList ≠ [] := by
  cases connective <;> exact List.cons_ne_nil _ _

theorem mem_of_spelled (connective : Connective) {first : Char} {rest later : List Char}
    (spelled : first :: rest = connective.symbol.toList ++ later) :
    first ∈ ['&', '|', '-', '<'] := by
  have heads := congrArg List.head? spelled
  rw [List.head?_append_of_ne_nil _ connective.symbol_ne_nil] at heads
  cases connective <;> cases heads <;> decide

theorem plain_of_mem {first : Char} (member : first ∈ ['&', '|', '-', '<']) :
    Grammar.isBlank first = false ∧ first ≠ ')' := by
  simp only [List.mem_cons, List.not_mem_nil, or_false] at member
  rcases member with rfl | rfl | rfl | rfl <;> decide

theorem ne_of_mem_symbol (connective : Connective) {character : Char}
    (member : character ∈ connective.symbol.toList) : character ≠ '(' := by
  rintro rfl
  cases connective <;> simp [symbol] at member

theorem utf8Size_of_begun (connective : Connective) {begun after : List Char}
    (symbol_eq : connective.symbol.toList = begun ++ after) :
    ∀ character ∈ begun, character.utf8Size = 1 := by
  intro character member
  apply connective.utf8Size_eq
  rw [symbol_eq]
  exact List.mem_append_left _ member

end Connective

namespace Grammar

/-- The ways in which a partial derivation and the text behind it, at some offset, do not go
together. -/
inductive Stuck (offset : Nat) : Position → List Char → SyntaxFault → Prop where
  /-- The text ends while a parenthesis is open. -/
  | unclosed {position : Position} (opened : position.depth ≠ 0) :
      Stuck offset position [] { position := offset, expected := .character ')' }
  /-- The text ends before an operand, outside parentheses. -/
  | unfinished {hole : Hole} (outside : hole.depth = 0) :
      Stuck offset (.expecting hole) [] { position := offset, expected := .expression }
  /-- No operand begins where one is due. -/
  | operand {hole : Hole} {first : Char} {rest : List Char} (not_blank : isBlank first = false)
      (other : first ≠ '!' ∧ first ≠ '(' ∧ first.isAlphanum = false) :
      Stuck offset (.expecting hole) (first :: rest) { position := offset, expected := .expression }
  /-- A parenthesis is closed outside parentheses. -/
  | unopened {expression : Expression} {rest : List Char} :
      Stuck offset (.complete .whole expression) (')' :: rest)
        { position := offset - 1, expected := .character '(' }
  /-- Something else than a connective follows an expression. -/
  | connective {site : Site} {expression : Expression} {first : Char} {rest : List Char}
      (not_blank : isBlank first = false) (other : first ∉ [')', '&', '|', '-', '<']) :
      Stuck offset (.complete site expression) (first :: rest)
        { position := offset, expected := .connective }
  /-- A connective is begun, but does not go on. -/
  | arrow {site : Site} {expression : Expression} {connective : Connective} {begun after : List Char}
      {missing : Char} {rest : List Char} (nonempty : begun ≠ [])
      (symbol_eq : connective.symbol.toList = begun ++ missing :: after)
      (broken : rest.head? ≠ some missing) :
      Stuck offset (.complete site expression) (begun ++ rest)
        { position := offset + begun.length, expected := .character missing }

/-- Whether what is kept agrees with a partial derivation as far as faults depend on it. -/
def State.At (state : State) : Position → Prop
  | .expecting hole => state.focus = none ∧ state.depth = hole.depth
  | .complete site _ => state.focus.isSome = true ∧ state.depth = site.depth

section Bytes

theorem utf8ByteSize_ofList_append {front begun : List Char}
    (front_bytes : ∀ character ∈ front, character.utf8Size = 1)
    (begun_bytes : ∀ character ∈ begun, character.utf8Size = 1) :
    (String.ofList (front ++ begun)).utf8ByteSize = front.length + begun.length := by
  rw [String.utf8ByteSize_ofList, String.utf8Len_append, utf8Len_of_utf8Size_eq front_bytes,
    utf8Len_of_utf8Size_eq begun_bytes]

/-- Characters of one byte start at every offset up to their end. -/
theorem isValid_of_utf8Size_eq {front rest : List Char} {offset : Nat}
    (one_byte : ∀ character ∈ front, character.utf8Size = 1) (inside : offset ≤ front.length) :
    (⟨offset⟩ : String.Pos.Raw).IsValid (.ofList (front ++ rest)) := by
  rw [String.Pos.Raw.isValid_iff_exists_append]
  refine ⟨.ofList (front.take offset), .ofList (front.drop offset ++ rest), ?_, ?_⟩
  · rw [← String.ofList_append, ← List.append_assoc, List.take_append_drop]
  · have taken : ∀ character ∈ front.take offset, character.utf8Size = 1 :=
      fun character member => one_byte character (List.mem_of_mem_take member)
    rw [String.rawEndPos, String.utf8ByteSize_ofList, utf8Len_of_utf8Size_eq taken,
      List.length_take_of_le inside]

end Bytes

section Reading

variable {state : State} {position : Position} {offset : Nat} {fault : SyntaxFault}

theorem State.at_close (focused : state.focus.isSome = true) : ∀ (hole : Hole) (operand : Operand),
    state.depth = hole.depth → state.At (.close hole operand)
  | .first _, _, depth_eq => ⟨focused, depth_eq⟩
  | .right _ _ _, _, depth_eq => ⟨focused, depth_eq⟩
  | .negand outer, operand, depth_eq => at_close focused outer (.not operand) depth_eq

theorem isAlphanum_of_mem {first : Char} (member : first ∈ [')', '&', '|', '-', '<']) :
    first.isAlphanum = false := by
  simp only [List.mem_cons, List.not_mem_nil, or_false] at member
  rcases member with rfl | rfl | rfl | rfl | rfl <;> rfl

/-- Where no token is cut off, none is begun, or a connective is begun that does not go on. -/
theorem cut_error {first : Char} {rest : List Char} (cut_eq : cut offset first rest = .error fault) :
    (first ≠ '!' ∧ first ≠ '(' ∧ first.isAlphanum = false) ∧
      (first ∉ [')', '&', '|', '-', '<'] ∧ fault = { position := offset, expected := .connective } ∨
        ∃ connective : Connective, ∃ begun missing after later,
          begun ≠ [] ∧ connective.symbol.toList = begun ++ missing :: after ∧
          later.head? ≠ some missing ∧ first :: rest = begun ++ later ∧
          fault = { position := offset + begun.length, expected := .character missing }) := by
  unfold cut at cut_eq
  split at cut_eq
  all_goals try cases cut_eq
  · rename_i broken
    exact ⟨by decide, .inr ⟨.implies, ['-'], '>', [], rest, List.cons_ne_nil _ _, rfl,
      fun begins => (List.head?_eq_some_iff.mp begins).elim broken, rfl, rfl⟩⟩
  · rename_i later broken
    exact ⟨by decide, .inr ⟨.iff, ['<', '-'], '>', [], later, List.cons_ne_nil _ _, rfl,
      fun begins => (List.head?_eq_some_iff.mp begins).elim broken, rfl, rfl⟩⟩
  · rename_i _ broken
    exact ⟨by decide, .inr ⟨.iff, ['<'], '-', ['>'], rest, List.cons_ne_nil _ _, rfl,
      fun begins => (List.head?_eq_some_iff.mp begins).elim broken, rfl, rfl⟩⟩
  · rename_i no_bang no_open no_close no_and no_or no_dash no_angle _ _ _
    split at cut_eq
    · cases cut_eq
    · rename_i not_alphanumeric
      cases cut_eq
      refine ⟨⟨no_bang, no_open, Bool.eq_false_iff.mpr not_alphanumeric⟩, .inl ⟨?_, rfl⟩⟩
      simp only [List.mem_cons, List.not_mem_nil, or_false, not_or]
      exact ⟨no_close, no_and, no_or, no_dash, no_angle⟩

/-- A token extends the partial derivation, or the reader is stuck there, or it breaks off. -/
theorem State.At.accept?_token (reached : state.At position) {token : Token} {rest : List Char}
    (fits : token.Fits rest) :
    (∃ next last, position.step? token = some next ∧
      state.accept? { position := offset, lexeme := .token token } = some (.ok last) ∧
        last.At next) ∨
    (∃ fault, state.accept? { position := offset, lexeme := .token token } = some (.error fault) ∧
      Stuck offset position (token.text.toList ++ rest) fault) ∨
    state.accept? { position := offset, lexeme := .token token } = none := by
  obtain ⟨focus, pending, depth, table⟩ := state
  cases position with
  | expecting hole =>
      obtain ⟨rfl, rfl⟩ := reached
      cases token with
      | name text =>
          simp only [State.accept?]
          split
          · exact .inl ⟨_, _, rfl, rfl, State.at_close rfl hole (.name text) rfl⟩
          · exact .inr (.inr rfl)
      | not => exact .inl ⟨_, _, rfl, rfl, rfl, rfl⟩
      | leftParen => exact .inl ⟨_, _, rfl, rfl, rfl, rfl⟩
      | rightParen => exact .inr (.inl ⟨_, rfl, .operand rfl (by decide)⟩)
      | connective connective =>
          refine .inr (.inl ⟨_, rfl, ?_⟩)
          cases connective <;> exact .operand rfl (by decide)
  | complete site expression =>
      obtain ⟨focused, rfl⟩ := reached
      obtain ⟨formula, rfl⟩ := Option.isSome_iff_exists.mp focused
      cases token with
      | name text =>
          obtain ⟨first, after, spelled⟩ := List.exists_cons_of_ne_nil fits.1.1
          have alphanumeric : first.isAlphanum = true :=
            fits.1.2 first (by rw [spelled]; exact List.mem_cons_self)
          refine .inr (.inl ⟨_, rfl, ?_⟩)
          rw [Token.text, spelled]
          refine .connective (isBlank_of_isAlphanum alphanumeric) fun listed => ?_
          rw [isAlphanum_of_mem listed] at alphanumeric
          cases alphanumeric
      | not | leftParen => exact .inr (.inl ⟨_, rfl, .connective rfl (by decide)⟩)
      | rightParen =>
          cases site with
          | whole => exact .inr (.inl ⟨_, rfl, .unopened⟩)
          | group outer =>
              exact .inl ⟨_, _, rfl, rfl, State.at_close rfl outer (.group expression) rfl⟩
      | connective connective =>
          exact .inl ⟨_, _, Position.step?_connective site expression connective, rfl, rfl, rfl⟩

/-- What starts no token is at fault as it stands. -/
theorem State.At.accept?_stray (reached : state.At position) {first : Char} {rest : List Char}
    (not_blank : isBlank first = false) {found : SyntaxFault}
    (cut_eq : cut offset first rest = .error found) :
    ∃ fault,
      state.accept? { position := offset, lexeme := .stray found } = some (.error fault) ∧
      Stuck offset position (first :: rest) fault := by
  obtain ⟨focus, pending, depth, table⟩ := state
  obtain ⟨no_operand, stray⟩ := cut_error cut_eq
  cases position with
  | expecting hole =>
      obtain ⟨rfl, rfl⟩ := reached
      exact ⟨_, rfl, .operand not_blank no_operand⟩
  | complete site expression =>
      obtain ⟨focused, rfl⟩ := reached
      obtain ⟨formula, rfl⟩ := Option.isSome_iff_exists.mp focused
      refine ⟨found, rfl, ?_⟩
      rcases stray with ⟨other, rfl⟩ |
        ⟨connective, begun, missing, after, later, nonempty, symbol_eq, broken, text_eq, rfl⟩
      · exact .connective not_blank other
      · rw [text_eq]
        exact .arrow nonempty symbol_eq broken

theorem State.At.stuck_of_finish (reached : state.At position)
    (failed : state.finish offset = .error fault) : Stuck offset position [] fault := by
  rw [State.finish] at failed
  cases position with
  | expecting hole =>
      rw [reached.1, reached.2] at failed
      split at failed
      · rename_i opened
        cases failed
        exact .unclosed opened
      · rename_i outside
        cases failed
        exact .unfinished (Decidable.not_not.mp outside)
  | complete site expression =>
      obtain ⟨formula, focus_eq⟩ := Option.isSome_iff_exists.mp reached.1
      rw [focus_eq, reached.2] at failed
      split at failed
      · rename_i opened
        cases failed
        exact .unclosed opened
      · cases failed

/-- Whether a fault is found in lexemes or at the end of a text of the given length. -/
def State.Fails (state : State) (placed : List Placed) (length : Nat) (fault : SyntaxFault) : Prop :=
  state.read? placed = some (.error fault) ∨
    ∃ last, state.read? placed = some (.ok last) ∧ last.finish length = .error fault

theorem State.fails_cons_iff {head : Placed} {rest : List Placed} {length : Nat} :
    state.Fails (head :: rest) length fault ↔
      (∃ next, state.accept? head = some (.ok next) ∧ next.Fails rest length fault) ∨
        state.accept? head = some (.error fault) := by
  rw [State.Fails, State.read?]
  cases state.accept? head with
  | none => simp
  | some outcome => cases outcome <;> simp [State.Fails]

theorem fails_of_parse? {text : String} (failed : parse? text = some (.error fault)) :
    ({} : State).Fails (lex text) text.utf8ByteSize fault := by
  rw [parse?] at failed
  split at failed
  · rename_i last read_eq
    exact .inr ⟨last, read_eq, Option.some.inj failed⟩
  · rename_i read_eq
    cases failed
    exact .inl read_eq
  · cases failed

/-- Where reading fails, a beginning of the text leads to a partial derivation that is stuck. -/
theorem State.At.exists_stuck {text : List Char} (reached : state.At position)
    (failed : state.Fails (lexOnto [] offset text) (offset + String.utf8Len text) fault) :
    ∃ front rest tokens next, text = front ++ rest ∧ Begins rest front tokens ∧
      position.run? tokens = some next ∧
      Stuck (offset + String.utf8Len front) next rest fault := by
  induction length_eq : text.length using Nat.strongRecOn
    generalizing state position offset text with
  | ind length induction =>
      cases text with
      | nil =>
          rw [lexOnto] at failed
          rcases failed with failed | ⟨last, read_eq, failed⟩
          · cases failed
          · cases read_eq
            exact ⟨[], [], [], position, rfl, .nil, rfl, reached.stuck_of_finish failed⟩
      | cons first rest =>
          rw [List.length_cons] at length_eq
          by_cases is_blank : isBlank first = true
          · have size_eq := utf8Size_of_isBlank is_blank
            rw [lexOnto_of_isBlank [] is_blank, String.utf8Len_cons, size_eq,
              ← Nat.add_assoc, Nat.add_right_comm] at failed
            obtain ⟨front, later, tokens, next, rfl, begins, ran, stuck⟩ :=
              induction rest.length (by omega) reached failed rfl
            refine ⟨first :: front, later, tokens, next, rfl, .blank is_blank begins, ran, ?_⟩
            rw [String.utf8Len_cons, size_eq, ← Nat.add_assoc, Nat.add_right_comm]
            exact stuck
          · cases cut_eq : cut offset first rest with
            | ok found =>
                obtain ⟨token, remaining⟩ := found
                obtain ⟨spelled, fits⟩ := cut_sound cut_eq
                have shorter := cut_length_le cut_eq
                rw [lexOnto_nil_of_cut is_blank cut_eq, State.fails_cons_iff] at failed
                rcases reached.accept?_token fits with
                  ⟨next, last, stepped, accepted, kept⟩ | ⟨other, accepted, stuck⟩ | broken_off
                · rw [accepted, spelled, String.utf8Len_append, String.utf8Len_toList,
                    ← Nat.add_assoc] at failed
                  rcases failed with ⟨_, same, failed⟩ | same <;> cases same
                  obtain ⟨front, later, tokens, stop, rfl, begins, ran, stuck⟩ :=
                    induction remaining.length (by omega) kept failed rfl
                  refine ⟨token.text.toList ++ front, later, token :: tokens, stop, ?_,
                    .token fits begins, ?_, ?_⟩
                  · rw [spelled, List.append_assoc]
                  · rw [Position.run?, stepped]
                    exact ran
                  · rw [String.utf8Len_append, String.utf8Len_toList, ← Nat.add_assoc]
                    exact stuck
                · rw [accepted] at failed
                  rcases failed with ⟨_, same, _⟩ | same <;> cases same
                  rw [← spelled] at stuck
                  exact ⟨[], _, [], position, rfl, .nil, rfl, stuck⟩
                · rw [broken_off] at failed
                  rcases failed with ⟨_, same, _⟩ | same <;> cases same
            | error found =>
                obtain ⟨other, accepted, stuck⟩ :=
                  reached.accept?_stray (Bool.eq_false_iff.mpr is_blank) cut_eq
                rw [lexOnto_of_stray [] is_blank cut_eq, List.reverse_singleton,
                  State.fails_cons_iff, accepted] at failed
                rcases failed with ⟨_, same, _⟩ | same <;> cases same
                exact ⟨[], _, [], position, rfl, .nil, rfl, stuck⟩

/-- A fault of a text shows where the text and its partial derivation part.  The characters before
that are of one byte, so they count the offset. -/
theorem exists_stuck_of_parse? {text : String} (failed : parse? text = some (.error fault)) :
    ∃ front rest tokens next, text.toList = front ++ rest ∧ Begins rest front tokens ∧
      Position.start.run? tokens = some next ∧ (vocabulary tokens).Fits ∧
        Stuck front.length next rest fault := by
  have reached : ({} : State).At .start := ⟨rfl, rfl⟩
  have stopped : ({} : State).Fails (lexOnto [] 0 text.toList) (0 + String.utf8Len text.toList)
      fault := by
    rw [Nat.zero_add, String.utf8Len_toList]
    exact fails_of_parse? failed
  obtain ⟨front, rest, tokens, next, text_eq, begins, ran, stuck⟩ := reached.exists_stuck stopped
  rw [Nat.zero_add, utf8Len_of_utf8Size_eq begins.utf8Size_eq] at stuck
  refine ⟨front, rest, tokens, next, text_eq, begins, ran, begins.fits_of_parse? ran ?_, stuck⟩
  rw [← text_eq, String.ofList_toList, failed]
  exact Option.some_ne_none _

/-- A connective that is begun and does not go on is at fault where it should go on. -/
theorem cut_of_begun {connective : Connective} {begun after later : List Char} {missing first : Char}
    (symbol_eq : connective.symbol.toList = first :: begun ++ missing :: after)
    (broken : later.head? ≠ some missing) :
    cut offset first (begun ++ later) =
      .error { position := offset + (first :: begun).length, expected := .character missing } := by
  cases connective with
  | and | or => simp [Connective.symbol] at symbol_eq
  | implies =>
      have spelled : ['-', '>'] = first :: (begun ++ missing :: after) := symbol_eq
      cases begun with
      | nil =>
          cases spelled
          cases later with
          | nil => rfl
          | cons next later => simp_all [cut]
      | cons second begun => simp at spelled
  | iff =>
      have spelled : ['<', '-', '>'] = first :: (begun ++ missing :: after) := symbol_eq
      cases begun with
      | nil =>
          cases spelled
          cases later with
          | nil => rfl
          | cons next later => simp_all [cut]
      | cons second begun =>
          cases begun with
          | nil =>
              cases spelled
              cases later with
              | nil => rfl
              | cons next later => simp_all [cut]
          | cons third begun => simp at spelled

/-- Where the reader is stuck at a character, it fails. -/
theorem State.At.read?_of_stuck (reached : state.At position) {rest : List Char}
    (nonempty : rest ≠ []) (stuck : Stuck offset position rest fault) :
    state.read? (lexOnto [] offset rest) = some (.error fault) := by
  obtain ⟨focus, pending, depth, table⟩ := state
  cases stuck with
  | unclosed | unfinished => exact absurd rfl nonempty
  | @operand hole first rest not_blank other =>
      obtain ⟨rfl, rfl⟩ := reached
      cases cut_eq : cut offset first rest with
      | error found => rw [lexOnto_of_stray [] (Bool.eq_false_iff.mp not_blank) cut_eq]; rfl
      | ok found =>
          obtain ⟨token, remaining⟩ := found
          obtain ⟨spelled, fits⟩ := cut_sound cut_eq
          rw [lexOnto_nil_of_cut (Bool.eq_false_iff.mp not_blank) cut_eq]
          cases token with
          | name text =>
              obtain ⟨head, after, text_eq⟩ := List.exists_cons_of_ne_nil fits.1.1
              rw [Token.text, text_eq] at spelled
              cases spelled
              have alphanumeric := fits.1.2 first (by rw [text_eq]; exact List.mem_cons_self)
              rw [other.2.2] at alphanumeric
              cases alphanumeric
          | not =>
              cases spelled
              exact absurd rfl other.1
          | leftParen =>
              cases spelled
              exact absurd rfl other.2.1
          | rightParen | connective => rfl
  | unopened =>
      obtain ⟨focused, rfl⟩ := reached
      obtain ⟨formula, rfl⟩ := Option.isSome_iff_exists.mp focused
      rw [lexOnto_nil_of_cut (by decide) rfl]
      rfl
  | @connective site expression first rest not_blank other =>
      obtain ⟨focused, rfl⟩ := reached
      obtain ⟨formula, rfl⟩ := Option.isSome_iff_exists.mp focused
      cases cut_eq : cut offset first rest with
      | error found =>
          rw [lexOnto_of_stray [] (Bool.eq_false_iff.mp not_blank) cut_eq]
          rcases (cut_error cut_eq).2 with ⟨_, rfl⟩ |
            ⟨connective, begun, missing, after, later, nonempty, symbol_eq, _, text_eq, _⟩
          · rfl
          · have begins : first :: (begun.tail ++ missing :: after) =
                connective.symbol.toList ++ [] := by
              obtain ⟨head, begun, rfl⟩ := List.exists_cons_of_ne_nil nonempty
              cases text_eq
              rw [List.append_nil, symbol_eq]
              rfl
            exact absurd (List.mem_cons_of_mem _ (connective.mem_of_spelled begins)) other
      | ok found =>
          obtain ⟨token, remaining⟩ := found
          obtain ⟨spelled, fits⟩ := cut_sound cut_eq
          rw [lexOnto_nil_of_cut (Bool.eq_false_iff.mp not_blank) cut_eq]
          cases token with
          | name | not | leftParen => rfl
          | rightParen =>
              cases spelled
              exact absurd List.mem_cons_self other
          | connective connective =>
              exact absurd (List.mem_cons_of_mem _ (connective.mem_of_spelled spelled)) other
  | @arrow site expression connective begun after missing rest begun_nonempty symbol_eq broken =>
      obtain ⟨focused, rfl⟩ := reached
      obtain ⟨formula, rfl⟩ := Option.isSome_iff_exists.mp focused
      obtain ⟨first, begun, rfl⟩ := List.exists_cons_of_ne_nil begun_nonempty
      have begins : first :: (begun ++ missing :: after) = connective.symbol.toList ++ [] := by
        rw [List.append_nil, symbol_eq]
        rfl
      have not_blank := (Connective.plain_of_mem (connective.mem_of_spelled begins)).1
      rw [List.cons_append, lexOnto_of_stray [] (Bool.eq_false_iff.mp not_blank)
        (cut_of_begun symbol_eq broken)]
      rfl

theorem State.at_state (atomOf : String → Nat) (table : AtomTable) :
    ∀ position : Position, (position.state atomOf table).At position
  | .expecting _ => ⟨rfl, rfl⟩
  | .complete _ _ => ⟨rfl, rfl⟩

/-- A text with a beginning behind which the reader is stuck at a character has a fault there. -/
theorem Begins.parse?_of_stuck {front rest : List Char} {tokens : List Token}
    (begins : Begins rest front tokens) (ran : Position.start.run? tokens = some position)
    (fits : (vocabulary tokens).Fits) (nonempty : rest ≠ [])
    (stuck : Stuck front.length position rest fault) :
    parse? (.ofList (front ++ rest)) = some (.error fault) := by
  obtain ⟨placed, lexemes, lexed⟩ := begins.exists_lexOnto 0
  rw [Nat.zero_add] at lexed
  have read_eq := read?_append (read?_start lexemes ran fits) (lexOnto [] front.length rest)
  rw [(State.at_state _ _ position).read?_of_stuck nonempty stuck, ← lexed] at read_eq
  rw [parse?, lex, String.toList_ofList, read_eq]

end Reading

section Viability

variable {offset : Nat} {position : Position} {rest : List Char} {fault : SyntaxFault}

/-- What a stuck reader has read, with what it has read of a connective, can be completed, but with
the character behind it the reader is stuck there whatever follows. -/
theorem Stuck.exists_reach (stuck : Stuck offset position rest fault)
    (behind : ∀ site expression, position = .complete site expression → 0 < offset) {name : String}
    (source : SourceName name) :
    ∃ begun later, rest = begun ++ later ∧ (∀ character ∈ begun, character.utf8Size = 1) ∧
      fault.reach = offset + begun.length ∧ (∃ after, position.Completes name (begun ++ after)) ∧
      ∀ first ∈ later.head?, ∀ after, Stuck offset position (begun ++ first :: after) fault := by
  cases stuck with
  | unclosed | unfinished =>
      exact ⟨[], [], rfl, by simp, rfl, Position.exists_completes _ source, by simp⟩
  | @operand hole first rest not_blank other =>
      refine ⟨[], _, rfl, by simp, rfl, Position.exists_completes _ source, ?_⟩
      rintro _ ⟨⟩ after
      exact .operand not_blank other
  | @unopened expression rest =>
      refine ⟨[], _, rfl, by simp, ?_, Position.exists_completes _ source, ?_⟩
      · have counted : offset - 1 + 1 = offset := Nat.sub_add_cancel (behind _ _ rfl)
        exact counted
      · rintro _ ⟨⟩ after
        exact .unopened
  | @connective site expression first rest not_blank other =>
      refine ⟨[], _, rfl, by simp, rfl, Position.exists_completes _ source, ?_⟩
      rintro _ ⟨⟩ after
      exact .connective not_blank other
  | @arrow site expression connective begun after missing rest nonempty symbol_eq broken =>
      have missing_mem : missing ∈ connective.symbol.toList := by
        rw [symbol_eq]
        exact List.mem_append_right _ List.mem_cons_self
      refine ⟨begun, rest, rfl, connective.utf8Size_of_begun symbol_eq, ?_, ?_, ?_⟩
      · rw [SyntaxFault.reach, if_neg]
        rintro ⟨⟩
        exact connective.ne_of_mem_symbol missing_mem rfl
      · obtain ⟨after, completes⟩ :=
          Position.exists_completes_connective site expression connective source
        rw [symbol_eq, List.append_assoc] at completes
        exact ⟨_, completes⟩
      · intro first first_mem later
        refine .arrow nonempty symbol_eq ?_
        rw [first_mem] at broken
        exact broken

/-- What is said to be due at the place of a fault can be completed there, except where a text ends
before an operand in parentheses.  If it is a variable, no other name is needed. -/
theorem Stuck.exists_admitted (stuck : Stuck offset position rest fault)
    (not_open : fault.expected ≠ .character '(')
    (not_due : fault.expected = .character ')' → ∀ hole, position = .expecting hole → rest ≠ [])
    {token : String} (admits : fault.expected.Admits token) :
    ∃ begun later, rest = begun ++ later ∧ (∀ character ∈ begun, character.utf8Size = 1) ∧
      fault.position = offset + begun.length ∧
      (fault.expected = .expression → begun = [] ∧ ∃ hole, position = .expecting hole) ∧
      ∀ name, SourceName name → (fault.expected = .expression → name = token) →
        ∃ after, position.Completes name (begun ++ (token.toList ++ after)) := by
  cases stuck with
  | unclosed opened =>
      refine ⟨[], [], rfl, by simp, rfl, by simp, fun name _ _ => ?_⟩
      cases position with
      | expecting hole => exact absurd rfl (not_due rfl hole rfl)
      | complete site expression =>
          obtain ⟨fewer, depth_eq⟩ := Nat.exists_eq_succ_of_ne_zero opened
          have completes := Position.completes_complete site expression name
          rw [show site.depth = fewer + 1 from depth_eq, List.replicate_succ] at completes
          cases admits
          exact ⟨_, completes⟩
  | unfinished | operand =>
      refine ⟨[], _, rfl, by simp, rfl, fun _ => ⟨rfl, _, rfl⟩, fun name source is_name => ?_⟩
      cases is_name rfl
      exact ⟨_, Position.completes_expecting _ source⟩
  | unopened => exact absurd rfl not_open
  | @connective site expression =>
      obtain ⟨connective, rfl⟩ := admits
      exact ⟨[], _, rfl, by simp, rfl, by simp, fun name source _ =>
        Position.exists_completes_connective site expression connective source⟩
  | @arrow site expression connective begun after missing rest nonempty symbol_eq broken =>
      cases admits
      refine ⟨begun, rest, rfl, connective.utf8Size_of_begun symbol_eq, rfl, by simp,
        fun name source _ => ?_⟩
      obtain ⟨later, completes⟩ :=
        Position.exists_completes_connective site expression connective source
      rw [symbol_eq, List.append_assoc] at completes
      refine ⟨after ++ later, ?_⟩
      rw [Char.toString, String.toList_singleton]
      exact completes

end Viability

/-- A fault is found as early as possible: it lies on a character boundary, what it leaves in order
is the beginning of a formula, and together with the character behind it has the same fault whatever
follows. -/
theorem parse?_fault_earliest {text : String} {fault : SyntaxFault}
    (failed : parse? text = some (.error fault)) :
    fault.position ≤ text.utf8ByteSize ∧ (⟨fault.position⟩ : String.Pos.Raw).IsValid text ∧
      ∃ front rest : String, text = front ++ rest ∧ front.utf8ByteSize = fault.reach ∧
        (∃ after parsed, parse? (front ++ after) = some (.ok parsed)) ∧
        ∀ first ∈ rest.toList.head?, ∀ after,
          parse? (front ++ .singleton first ++ after) = some (.error fault) := by
  obtain ⟨front, rest, tokens, position, text_eq, begins, ran, fits, stuck⟩ :=
    exists_stuck_of_parse? failed
  have behind : ∀ site expression, position = .complete site expression → 0 < front.length := by
    rintro site expression rfl
    apply List.length_pos_iff.mpr
    apply begins.front_ne_nil
    rintro rfl
    cases ran
  obtain ⟨name, source, name_fits⟩ := begins.exists_name fits
  obtain ⟨begun, later, rfl, begun_bytes, reach_eq, ⟨after, completes⟩, stays⟩ :=
    stuck.exists_reach behind source
  have text_split : text = .ofList (front ++ begun ++ later) := by
    rw [List.append_assoc, ← text_eq, String.ofList_toList]
  have reached : (String.ofList (front ++ begun)).utf8ByteSize = fault.reach :=
    (utf8ByteSize_ofList_append begins.utf8Size_eq begun_bytes).trans reach_eq.symm
  have valid : (⟨fault.position⟩ : String.Pos.Raw).IsValid text := by
    rw [text_split]
    apply isValid_of_utf8Size_eq (List.forall_mem_append.mpr ⟨begins.utf8Size_eq, begun_bytes⟩)
    rw [List.length_append, ← reach_eq, SyntaxFault.reach]
    split <;> omega
  refine ⟨valid.le_rawEndPos, valid, .ofList (front ++ begun), .ofList later, ?_, reached, ?_, ?_⟩
  · rw [text_split, String.ofList_append]
  · obtain ⟨parsed, parse_eq⟩ := begins.exists_parse? ran completes name_fits
    refine ⟨.ofList after, parsed, ?_⟩
    rw [← String.ofList_append, List.append_assoc]
    exact parse_eq
  · intro first first_mem after
    rw [String.toList_ofList] at first_mem
    have still_stuck := stays first first_mem after.toList
    obtain ⟨more, rfl⟩ := List.head?_eq_some_iff.mp first_mem
    have continued : Begins (begun ++ first :: after.toList) front tokens := by
      apply begins.of_head?
      rw [List.head?_append, List.head?_append]
      rfl
    have joined : .ofList (front ++ begun) ++ .singleton first ++ after =
        String.ofList (front ++ (begun ++ first :: after.toList)) := by
      apply String.toList_inj.mp
      simp
    rw [joined]
    exact continued.parse?_of_stuck ran fits (by simp) still_stuck

/-- The fault of a character that begins none of the ways to go on with an arrow. -/
theorem parse?_fault_earliest_brokenArrow :
    parse? "(a<é" = some (.error { position := 3, expected := .character '-' }) ∧
      ∃ front rest : String, "(a<é" = front ++ rest ∧ front.utf8ByteSize = 3 ∧
        (∃ after parsed, parse? (front ++ after) = some (.ok parsed)) ∧
        ∀ first ∈ rest.toList.head?, ∀ after,
          parse? (front ++ .singleton first ++ after) =
            some (.error { position := 3, expected := .character '-' }) := by
  have failed : parse? "(a<é" = some (.error { position := 3, expected := .character '-' }) := by
    with_unfolding_all rfl
  exact ⟨failed, (parse?_fault_earliest failed).2.2⟩

section Due

variable {hole : Hole} {text : String}

/-- A text that ends where an operand is due is at fault there, even though the fault asks for a
parenthesis first if one is open. -/
theorem parse?_of_hole (spells : Spells text.toList hole.tokens)
    (fits : (vocabulary hole.tokens).Fits) :
    parse? text = some (.error
      { position := text.utf8ByteSize
        expected := if hole.depth = 0 then .expression else .character ')' }) := by
  rw [parse?, read?_start (spells_iff.mp spells) hole.run?_start fits]
  by_cases outside : hole.depth = 0 <;> simp [State.finish, Position.state, outside]

/-- Any variable may stand where an operand is due, if there is an atom for it. -/
theorem exists_parse?_of_hole (spells : Spells text.toList hole.tokens) {name : String}
    (source : SourceName name) (fits : (vocabulary (hole.tokens ++ [.name name])).Fits) :
    ∃ after parsed, parse? (text ++ name ++ after) = some (.ok parsed) := by
  obtain ⟨parsed, parse_eq⟩ := spells.begins.exists_parse? hole.run?_start
    (Position.completes_expecting hole source) fits
  refine ⟨.ofList (.replicate hole.depth ')'), parsed, ?_⟩
  rw [← parse_eq, String.ofList_append, String.ofList_append, String.ofList_toList,
    String.ofList_toList, String.append_assoc]

/-- No parenthesis may be closed where an operand is due. -/
theorem exists_fault_of_hole (spells : Spells text.toList hole.tokens)
    (fits : (vocabulary hole.tokens).Fits) (after : String) :
    ∃ fault, parse? (text ++ ")" ++ after) = some (.error fault) := by
  have begins := spells.begins.of_expecting hole.run?_start (')' :: after.toList)
  have joined : text ++ ")" ++ after = .ofList (text.toList ++ ')' :: after.toList) := by
    apply String.toList_inj.mp
    simp
  rw [joined]
  exact ⟨_, begins.parse?_of_stuck hole.run?_start fits (List.cons_ne_nil _ _)
    (.operand rfl (by decide))⟩

/-- A variable where an operand is due is one more name. -/
theorem Begins.nameCount_eq {front rest : List Char} {tokens : List Token}
    (begins : Begins rest front tokens) (ran : Position.start.run? tokens = some (.expecting hole))
    {name : String} (source : SourceName name) :
    nameCount (.ofList front ++ name) = (vocabulary (tokens ++ [.name name])).count := by
  have named := @Spells.token (.name name) _ _ ⟨source, breaks_nil⟩ .nil
  have spells := (begins.of_expecting ran _).append_spells named
  apply Grammar.nameCount_eq
  rw [String.toList_append, String.toList_ofList]
  rw [List.append_nil] at spells
  exact spells

end Due

/-- A token of the class that a fault expects could stand at its place, if there is an atom for it,
except where a parenthesis is at fault. -/
theorem exists_parse?_of_admits {text token : String} {fault : SyntaxFault}
    (failed : parse? text = some (.error fault)) (not_open : fault.expected ≠ .character '(')
    (not_due : fault.expected = .character ')' → ∀ hole : Hole, ¬ Spells text.toList hole.tokens)
    (admits : fault.expected.Admits token) :
    ∃ front rest, text = front ++ rest ∧ front.utf8ByteSize = fault.position ∧
      ((fault.expected = .expression → nameCount (front ++ token) ≤ atomLimit) →
        ∃ after parsed, parse? (front ++ token ++ after) = some (.ok parsed)) := by
  obtain ⟨front, rest, tokens, position, text_eq, begins, ran, fits, stuck⟩ :=
    exists_stuck_of_parse? failed
  have goes_on : fault.expected = .character ')' →
      ∀ hole, position = .expecting hole → rest ≠ [] := by
    rintro expected_eq hole rfl rfl
    apply not_due expected_eq hole
    have tokens_eq : hole.tokens = tokens := Position.tokens_of_run? ran
    rw [tokens_eq, text_eq, ← List.append_nil tokens]
    exact begins.append_spells .nil
  obtain ⟨begun, later, rfl, begun_bytes, position_eq, due, completes⟩ :=
    stuck.exists_admitted not_open goes_on admits
  refine ⟨.ofList (front ++ begun), .ofList later, ?_, ?_, fun room => ?_⟩
  · rw [← String.ofList_append, List.append_assoc, ← text_eq, String.ofList_toList]
  · exact (utf8ByteSize_ofList_append begins.utf8Size_eq begun_bytes).trans position_eq.symm
  -- A variable that is due needs an atom of its own; otherwise a name of the beginning will do.
  have named : ∃ name, SourceName name ∧ (fault.expected = .expression → name = token) ∧
      (vocabulary (tokens ++ [.name name])).Fits := by
    by_cases is_name : fault.expected = .expression
    · obtain ⟨rfl, hole, rfl⟩ := due is_name
      have source : SourceName token := by
        rw [is_name] at admits
        exact admits
      have name_fits := room is_name
      rw [List.append_nil, begins.nameCount_eq ran source] at name_fits
      exact ⟨token, source, fun _ => rfl, name_fits⟩
    · obtain ⟨name, source, name_fits⟩ := begins.exists_name fits
      exact ⟨name, source, fun same => absurd same is_name, name_fits⟩
  obtain ⟨name, source, is_name, name_fits⟩ := named
  obtain ⟨after, completes⟩ := completes name source is_name
  obtain ⟨parsed, parse_eq⟩ := begins.exists_parse? ran completes name_fits
  refine ⟨.ofList after, parsed, ?_⟩
  rw [← parse_eq]
  simp [String.ofList_append, String.append_assoc]

/-- What a fault says to be due could stand at its place, if there is an atom for it, except that a
text which ends where an operand is due while parentheses are open is asked for their end.  There
only the operand could stand. -/
theorem parse?_fault_expected (text : String) :
    (∀ fault, parse? text = some (.error fault) → fault.expected ≠ .character '(' →
      (fault.expected = .character ')' → ∀ hole : Hole, ¬ Spells text.toList hole.tokens) →
      ∀ token, fault.expected.Admits token → ∃ front rest,
        text = front ++ rest ∧ front.utf8ByteSize = fault.position ∧
          ((fault.expected = .expression → nameCount (front ++ token) ≤ atomLimit) →
            ∃ after parsed, parse? (front ++ token ++ after) = some (.ok parsed))) ∧
      ∀ hole : Hole, Spells text.toList hole.tokens → nameCount text ≤ atomLimit →
        parse? text = some (.error
          { position := text.utf8ByteSize
            expected := if hole.depth = 0 then .expression else .character ')' }) ∧
        (∀ name, SourceName name → nameCount (text ++ name) ≤ atomLimit →
          ∃ after parsed, parse? (text ++ name ++ after) = some (.ok parsed)) ∧
        ∀ after, ∃ fault, parse? (text ++ ")" ++ after) = some (.error fault) := by
  refine ⟨fun fault failed not_open not_due token admits =>
    exists_parse?_of_admits failed not_open not_due admits, fun hole spells fits => ?_⟩
  have hole_fits : (vocabulary hole.tokens).Fits := by
    rw [AtomTable.Fits, ← nameCount_eq spells]
    exact fits
  refine ⟨parse?_of_hole spells hole_fits, fun name source name_fits => ?_,
    exists_fault_of_hole spells hole_fits⟩
  rw [← String.ofList_toList (s := text),
    spells.begins.nameCount_eq hole.run?_start source] at name_fits
  exact exists_parse?_of_hole spells source name_fits

theorem parse?_fault_expected_brokenArrow :
    (parse? "a<é" = some (.error { position := 2, expected := .character '-' }) ∧
      ∃ front rest, "a<é" = front ++ rest ∧ front.utf8ByteSize = 2 ∧
        ∃ after parsed, parse? (front ++ "-" ++ after) = some (.ok parsed)) ∧
      Spells "a&".toList (Hole.right .whole (.operand (.name "a")) .and).tokens ∧
      parse? "a&" = some (.error { position := 2, expected := .expression }) := by
  have failed : parse? "a<é" = some (.error { position := 2, expected := .character '-' }) := by
    with_unfolding_all rfl
  have spells : Spells "a&".toList (Hole.right .whole (.operand (.name "a")) .and).tokens :=
    spells_iff.mpr (by with_unfolding_all rfl)
  have one_name : nameCount "a&" = 1 := by with_unfolding_all rfl
  refine ⟨⟨failed, ?_⟩, spells, ((parse?_fault_expected "a&").2 _ spells ?_).1⟩
  · obtain ⟨front, rest, text_eq, size_eq, completes⟩ :=
      (parse?_fault_expected "a<é").1 _ failed (by simp) (by simp) "-" rfl
    exact ⟨front, rest, text_eq, size_eq, completes (by simp)⟩
  · rw [one_name]
    decide

/-- Behind a parenthesis that is opened last, a fault asks for it to be closed, where only an
operand can stand. -/
theorem parse?_open_not_admitted :
    parse? "(" = some (.error { position := 1, expected := .character ')' }) ∧
      Expectation.Admits (.character ')') ")" ∧
      (¬ ∃ front rest after parsed, "(" = front ++ rest ∧ front.utf8ByteSize = 1 ∧
        parse? (front ++ ")" ++ after) = some (.ok parsed)) ∧
      Spells "(".toList (Hole.first (.group (.first .whole))).tokens ∧
      parse? "(" ≠ some (.error { position := 1, expected := .expression }) := by
  have spells : Spells "(".toList (Hole.first (.group (.first .whole))).tokens :=
    spells_iff.mpr (by with_unfolding_all rfl)
  have fits : (vocabulary (Hole.first (.group (.first .whole))).tokens).Fits := by decide
  have failed := parse?_of_hole spells fits
  refine ⟨failed, rfl, ?_, spells, ?_⟩
  · rintro ⟨front, rest, after, parsed, text_eq, front_size, parse_eq⟩
    have sizes := congrArg String.utf8ByteSize text_eq
    rw [String.utf8ByteSize_append, front_size] at sizes
    have rest_empty : rest = "" := by
      apply String.utf8ByteSize_eq_zero_iff.mp
      have one : "(".utf8ByteSize = 1 := rfl
      omega
    rw [rest_empty, String.append_empty] at text_eq
    obtain ⟨fault, refused⟩ := exists_fault_of_hole spells fits after
    rw [text_eq, parse_eq] at refused
    cases refused
  · rw [failed]
    simp [Hole.depth, Site.depth]

end Grammar
end PropSat
