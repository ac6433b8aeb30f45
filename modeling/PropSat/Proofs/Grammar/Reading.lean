import PropSat.Grammar.Reader
import PropSat.Proofs.Grammar.Derivation
import PropSat.Proofs.Grammar.Spelling

/-!
# The reader follows partial derivations

What the reader keeps is an image of a partial derivation: each gap stands for a hole, with the
formulas of the expressions on its left, and the gaps that an operand fills are those of the
negations and of the one other hole that it completes.  So the reader accepts exactly the texts
whose tokens have a derivation with no more names than there are atoms, and finds the formula of the
derivation.  It breaks off exactly where a partial derivation comes to have more names.
-/

namespace PropSat
namespace Grammar

/-- The name that a token is, if it is one. -/
def Token.name? : Token → Option String
  | .name text => some text
  | _ => none

/-- The names among tokens, in order and with repetitions. -/
def names (tokens : List Token) : List String := tokens.filterMap Token.name?

/-- The tokens among lexemes. -/
def tokensOf (placed : List Placed) : List Token :=
  placed.filterMap fun lexeme =>
    match lexeme.lexeme with
    | .token token => some token
    | .stray _ => none

theorem tokensOf_append (front back : List Placed) :
    tokensOf (front ++ back) = tokensOf front ++ tokensOf back :=
  List.filterMap_append

theorem tokensOf_singleton {head : Placed} {token : Token} (is_token : head.lexeme = .token token) :
    tokensOf [head] = [token] := by
  rw [tokensOf, List.filterMap_cons, is_token]
  rfl

/-- Lexemes that are all tokens are these tokens. -/
theorem tokensOf_eq {placed : List Placed} {tokens : List Token}
    (lexemes : placed.map Placed.lexeme = tokens.map Lexeme.token) : tokensOf placed = tokens := by
  induction tokens generalizing placed with
  | nil => rw [List.map_eq_nil_iff.mp lexemes]; rfl
  | cons token rest induction =>
      obtain ⟨⟨place, lexeme⟩, placed, rfl, lexeme_eq, rest_lexemes⟩ :=
        List.map_eq_cons_iff.mp lexemes
      cases lexeme_eq
      exact congrArg (token :: ·) (induction rest_lexemes)

mutual

/-- Number of parentheses that are open at a place for an expression. -/
def Site.depth : Site → Nat
  | .whole => 0
  | .group outer => outer.depth + 1

/-- Number of parentheses that are open at a place for an operand. -/
def Hole.depth : Hole → Nat
  | .first site => site.depth
  | .right site _ _ => site.depth
  | .negand outer => outer.depth

end

/-- The gap that only waits for the first operand of the whole. -/
def Site.spare : Site → List Pending
  | .whole => [{ gap := .whole, depth := 0 }]
  | .group _ => []

mutual

/-- The gaps behind an expression at a place. -/
def Site.pending (atomOf : String → Nat) : Site → List Pending
  | .whole => [{ gap := .whole, depth := 0 }]
  | .group outer => outer.pending atomOf

/-- The gaps before an operand at a place. -/
def Hole.pending (atomOf : String → Nat) : Hole → List Pending
  | .first site => site.spare ++ site.pending atomOf
  | .right site left connective =>
      { gap := .right connective (left.formula atomOf), depth := site.depth } ::
        site.pending atomOf
  | .negand outer => { gap := .negand, depth := outer.depth } :: outer.pending atomOf

end

/-- What the reader keeps of a partial derivation. -/
def Position.state (atomOf : String → Nat) (table : AtomTable) : Position → State
  | expecting hole =>
      { focus := none, pending := hole.pending atomOf, depth := hole.depth, table }
  | complete site expression =>
      { focus := some (expression.formula atomOf), pending := site.pending atomOf,
        depth := site.depth, table }

section Gaps

variable {atomOf : String → Nat}

/-- An operand that is complete inside parentheses ends no gap outside them. -/
theorem settle_of_lt {depth : Nat} {pending : List Pending}
    (inside : ∀ top ∈ pending.head?, top.depth < depth) (operand : Formula) :
    settle depth operand pending = (operand, pending) := by
  cases pending with
  | nil => rfl
  | cons top rest =>
      have deeper := inside top rfl
      rw [settle, if_neg (by omega)]

mutual

theorem Site.head_depth_le : ∀ site : Site,
    ∀ top ∈ (site.pending atomOf).head?, top.depth ≤ site.depth
  | .whole => by simp [Site.pending]
  | .group outer => by
      intro top member
      have inside := Hole.head_depth_le outer top member
      rw [Site.depth]
      omega

/-- The innermost gap was left at no greater depth than the present one. -/
theorem Hole.head_depth_le : ∀ hole : Hole,
    ∀ top ∈ (hole.pending atomOf).head?, top.depth ≤ hole.depth
  | .first .whole => by simp [Hole.pending, Site.spare]
  | .first (.group outer) => Site.head_depth_le (.group outer)
  | .right site left connective => by simp [Hole.pending, Hole.depth]
  | .negand outer => by simp [Hole.pending, Hole.depth]

end

/-- Completing an operand fills the gaps of the holes that it completes. -/
theorem complete_eq_state_close (atomOf : String → Nat) (table : AtomTable) :
    ∀ (hole : Hole) (operand : Operand) (focus : Option Formula) (depth : Nat),
      ({ focus, pending := hole.pending atomOf, depth, table } : State).complete hole.depth
          (operand.formula atomOf) =
        (Position.close hole operand).state atomOf table
  | .first .whole, operand, focus, depth => rfl
  | .first (.group outer), operand, focus, depth => by
      have inside : ∀ top ∈ (outer.pending atomOf).head?, top.depth < outer.depth + 1 :=
        fun top member => Nat.lt_succ_of_le (Hole.head_depth_le outer top member)
      simp only [State.complete, Hole.pending, Site.spare, Site.pending, Hole.depth, Site.depth,
        List.nil_append, settle_of_lt inside]
      rfl
  | .right site left connective, operand, focus, depth => by
      simp only [State.complete, Hole.pending, Hole.depth, settle, Nat.le_refl, if_true]
      rfl
  | .negand outer, operand, focus, depth => by
      have outward := complete_eq_state_close atomOf table outer (.not operand) focus depth
      rw [Position.close, ← outward]
      simp only [State.complete, Hole.pending, Hole.depth, settle, Nat.le_refl, if_true]
      rfl

end Gaps

/-- The atom of a name among the distinct names of a text. -/
def atomIn (table : AtomTable) (name : String) : Nat := table.names.toList.idxOf name

theorem atomIn_eq {table : AtomTable} (distinct : table.Distinct) {name : String} {atom : Nat}
    (named : table.name? atom = some name) : atomIn table name = atom := by
  rw [AtomTable.name?_eq] at named
  have member := List.mem_of_getElem? named
  have inside := List.idxOf_lt_length_of_mem member
  apply (List.getElem?_inj inside distinct).mp
  rw [named, List.getElem?_eq_getElem inside, List.getElem_idxOf]

section Reading

variable {final table : AtomTable}

theorem accept?_name (distinct : final.Distinct) {name : String}
    (fits : (table.including name).Fits) (below : (table.including name).Below final) (hole : Hole)
    (place : Nat) :
    ((Position.expecting hole).state (atomIn final) table).accept?
        { position := place, lexeme := .token (.name name) } =
      some
        (.ok ((Position.close hole (.name name)).state (atomIn final) (table.including name))) := by
  obtain ⟨atom, named, interned⟩ := AtomTable.exists_intern fits
  have atom_eq : atom = atomIn final name := (atomIn_eq distinct (below.name? named)).symm
  rw [← complete_eq_state_close _ _ hole (.name name) none hole.depth, Operand.formula, ← atom_eq]
  simp only [State.accept?, Position.state, interned]

/-- Reading a token that fits extends the partial derivation as long as there are atoms. -/
theorem accept?_of_step? (distinct : final.Distinct) {position next : Position} {token : Token}
    (stepped : position.step? token = some next)
    (fits : (table.includingAll (names [token])).Fits)
    (below : (table.includingAll (names [token])).Below final) (place : Nat) :
    (position.state (atomIn final) table).accept?
        { position := place, lexeme := .token token } =
      some (.ok (next.state (atomIn final) (table.includingAll (names [token])))) := by
  cases position with
  | expecting hole =>
      cases token with
      | name text =>
          cases stepped
          exact accept?_name distinct fits below hole place
      | not | leftParen =>
          cases stepped
          rfl
      | rightParen | connective => cases stepped
  | complete site expression =>
      cases token with
      | name | not | leftParen => cases site <;> cases stepped
      | rightParen =>
          cases site with
          | whole => cases stepped
          | group outer =>
              cases stepped
              have closed := complete_eq_state_close (atomIn final) table outer
                (.group expression) (some (expression.formula (atomIn final))) (outer.depth + 1)
              exact congrArg (some ∘ Except.ok) closed
      | connective connective => cases site <;> (cases stepped; rfl)

/-- A token that does not fit is refused. -/
theorem exists_accept?_fault {position : Position} {token : Token}
    (refused : position.step? token = none) (atomOf : String → Nat) (place : Nat) :
    ∃ fault, (position.state atomOf table).accept?
      { position := place, lexeme := .token token } = some (.error fault) := by
  cases position with
  | expecting hole =>
      cases token with
      | name | not | leftParen => cases refused
      | rightParen | connective => exact ⟨_, rfl⟩
  | complete site expression =>
      cases token with
      | name | not | leftParen => exact ⟨_, rfl⟩
      | rightParen =>
          cases site with
          | whole => exact ⟨_, rfl⟩
          | group outer => cases refused
      | connective connective => cases site <;> cases refused

/-- Reading breaks off at a name that fits if there is no atom left for it. -/
theorem accept?_of_not_fits {position next : Position} {token : Token}
    (stepped : position.step? token = some next) (fits : table.Fits)
    (full : ¬ (table.includingAll (names [token])).Fits) (atomOf : String → Nat) (place : Nat) :
    (position.state atomOf table).accept? { position := place, lexeme := .token token } =
      none := by
  cases token with
  | name text =>
      cases position with
      | expecting hole =>
          simp only [State.accept?, Position.state, AtomTable.intern_of_not_fits fits full]
      | complete site expression => cases site <;> cases stepped
  | not | leftParen | rightParen | connective => exact absurd fits full

theorem names_append (front back : List Token) :
    names (front ++ back) = names front ++ names back :=
  List.filterMap_append

theorem names_cons (token : Token) (rest : List Token) :
    names (token :: rest) = names [token] ++ names rest :=
  names_append [token] rest

theorem names_tokensOf_cons (head : Placed) (rest : List Placed) :
    names (tokensOf (head :: rest)) = names (tokensOf [head]) ++ names (tokensOf rest) := by
  rw [← names_append, ← tokensOf_append, List.singleton_append]

theorem includingAll_names_cons (table : AtomTable) (token : Token) (rest : List Token) :
    table.includingAll (names (token :: rest)) =
      (table.includingAll (names [token])).includingAll (names rest) := by
  rw [names_cons, AtomTable.includingAll_append]

/-- Reading tokens extends the partial derivation as long as they fit and there are atoms. -/
theorem read?_of_run? (distinct : final.Distinct) {position last : Position} {tokens : List Token}
    {placed : List Placed} (lexemes : placed.map Placed.lexeme = tokens.map Lexeme.token)
    (ran : position.run? tokens = some last) (fits : (table.includingAll (names tokens)).Fits)
    (below : (table.includingAll (names tokens)).Below final) :
    (position.state (atomIn final) table).read? placed =
      some (.ok (last.state (atomIn final) (table.includingAll (names tokens)))) := by
  induction tokens generalizing position placed table with
  | nil =>
      rw [List.map_nil, List.map_eq_nil_iff] at lexemes
      cases ran
      rw [lexemes]
      rfl
  | cons token rest induction =>
      obtain ⟨⟨place, lexeme⟩, placed, rfl, lexeme_eq, rest_lexemes⟩ :=
        List.map_eq_cons_iff.mp lexemes
      cases lexeme_eq
      rw [includingAll_names_cons] at fits below ⊢
      rw [Position.run?] at ran
      cases stepped : position.step? token with
      | none =>
          rw [stepped] at ran
          cases ran
      | some next =>
          rw [stepped] at ran
          have token_below := (table.includingAll (names [token])).below_includingAll (names rest)
          rw [State.read?, accept?_of_step? distinct stepped (fits.of_below token_below)
            (token_below.trans below) place]
          exact induction rest_lexemes ran fits below

theorem exists_accept?_stray (state : State) (place : Nat) (fault : SyntaxFault) :
    ∃ other,
      state.accept? { position := place, lexeme := .stray fault } = some (.error other) := by
  obtain ⟨focus, pending, depth, table⟩ := state
  cases focus <;> exact ⟨_, rfl⟩

/-- What one lexeme does: it extends the partial derivation, is at fault, or is a name for which
there is no atom left. -/
theorem accept?_cases (distinct : final.Distinct) (position : Position) (fits : table.Fits)
    (head : Placed) (below : (table.includingAll (names (tokensOf [head]))).Below final) :
    (∃ token next, head.lexeme = .token token ∧ position.step? token = some next ∧
        (table.includingAll (names [token])).Fits ∧
        (position.state (atomIn final) table).accept? head =
          some (.ok (next.state (atomIn final) (table.includingAll (names [token]))))) ∨
      (∃ fault, (∀ token, head.lexeme = .token token → position.step? token = none) ∧
        (position.state (atomIn final) table).accept? head = some (.error fault)) ∨
      ∃ token next, head.lexeme = .token token ∧ position.step? token = some next ∧
        ¬ (table.includingAll (names [token])).Fits ∧
        (position.state (atomIn final) table).accept? head = none := by
  obtain ⟨place, lexeme⟩ := head
  cases lexeme with
  | stray fault =>
      obtain ⟨other, refused⟩ := exists_accept?_stray (position.state (atomIn final) table) place
        fault
      exact .inr (.inl ⟨other, fun token same => Lexeme.noConfusion same, refused⟩)
  | token token =>
      cases stepped : position.step? token with
      | none =>
          obtain ⟨fault, refused⟩ := exists_accept?_fault stepped (atomIn final) place
          exact .inr (.inl ⟨fault, fun other same => Lexeme.token.inj same ▸ stepped, refused⟩)
      | some next =>
          by_cases token_fits : (table.includingAll (names [token])).Fits
          · exact .inl ⟨token, next, rfl, stepped, token_fits,
              accept?_of_step? distinct stepped token_fits below place⟩
          · exact .inr (.inr ⟨token, next, rfl, stepped, token_fits,
              accept?_of_not_fits stepped fits token_fits (atomIn final) place⟩)

/-- What is read after some lexemes is read by the state that they lead to. -/
theorem read?_append {state next : State} {placed : List Placed}
    (read_eq : state.read? placed = some (.ok next)) (rest : List Placed) :
    state.read? (placed ++ rest) = next.read? rest := by
  induction placed generalizing state with
  | nil =>
      cases read_eq
      rfl
  | cons head placed induction =>
      rw [State.read?] at read_eq
      split at read_eq
      · rename_i after accepted
        rw [List.cons_append, State.read?, accepted]
        exact induction read_eq
      · rename_i refused
        exact absurd read_eq (refused next)

/-- Only tokens that extend the partial derivation, with names for which there are atoms, are read to
the end. -/
theorem exists_run?_of_read? (distinct : final.Distinct) (position : Position) {placed : List Placed}
    (fits : table.Fits) (below : (table.includingAll (names (tokensOf placed))).Below final)
    {last : State} (read_eq : (position.state (atomIn final) table).read? placed = some (.ok last)) :
    ∃ tokens next, placed.map Placed.lexeme = tokens.map Lexeme.token ∧
      position.run? tokens = some next ∧ (table.includingAll (names tokens)).Fits ∧
      last = next.state (atomIn final) (table.includingAll (names tokens)) := by
  induction placed generalizing position table with
  | nil =>
      cases read_eq
      exact ⟨[], position, rfl, rfl, fits, rfl⟩
  | cons head rest induction =>
      rw [State.read?] at read_eq
      rw [names_tokensOf_cons, AtomTable.includingAll_append] at below
      have head_below := (AtomTable.below_includingAll _ _).trans below
      rcases accept?_cases distinct position fits head head_below with
        ⟨token, next, is_token, stepped, token_fits, accepted⟩ | ⟨fault, _, refused⟩ |
          ⟨token, next, _, _, _, broken_off⟩
      · rw [accepted] at read_eq
        rw [tokensOf_singleton is_token] at below
        obtain ⟨tokens, last, lexemes, ran, fits, last_eq⟩ := induction next token_fits below read_eq
        rw [← includingAll_names_cons] at fits last_eq
        refine ⟨token :: tokens, last, ?_, ?_, fits, last_eq⟩
        · rw [List.map_cons, List.map_cons, is_token, lexemes]
        · rw [Position.run?, stepped]
          exact ran
      · rw [refused] at read_eq
        cases read_eq
      · rw [broken_off] at read_eq
        cases read_eq

/-- Reading breaks off exactly if some tokens at the beginning extend the partial derivation and have
more names than there are atoms. -/
theorem read?_eq_none_iff (distinct : final.Distinct) (position : Position) {placed : List Placed}
    (fits : table.Fits) (below : (table.includingAll (names (tokensOf placed))).Below final) :
    (position.state (atomIn final) table).read? placed = none ↔
      ∃ front next, front.map Lexeme.token <+: placed.map Placed.lexeme ∧
        position.run? front = some next ∧ ¬ (table.includingAll (names front)).Fits := by
  induction placed generalizing position table with
  | nil =>
      simp only [State.read?, reduceCtorEq, List.map_nil, List.prefix_nil, List.map_eq_nil_iff,
        false_iff]
      rintro ⟨_, _, rfl, _, full⟩
      exact full fits
  | cons head rest induction =>
      rw [State.read?, List.map_cons]
      rw [names_tokensOf_cons, AtomTable.includingAll_append] at below
      have head_below := (AtomTable.below_includingAll _ _).trans below
      rcases accept?_cases distinct position fits head head_below with
        ⟨token, next, is_token, stepped, token_fits, accepted⟩ | ⟨fault, refuses, refused⟩ |
          ⟨token, next, is_token, stepped, full, broken_off⟩
      · rw [tokensOf_singleton is_token] at below
        simp only [accepted, is_token, induction next token_fits below, ← includingAll_names_cons]
        constructor
        · rintro ⟨front, last, begins, ran, full⟩
          refine ⟨token :: front, last, List.prefix_cons_inj _ |>.mpr begins, ?_, full⟩
          rw [Position.run?, stepped]
          exact ran
        · rintro ⟨front, last, begins, ran, full⟩
          cases front with
          | nil => exact absurd fits full
          | cons other front =>
              obtain ⟨same, rest_begins⟩ := List.cons_prefix_cons.mp begins
              cases same
              rw [Position.run?, stepped] at ran
              exact ⟨front, last, rest_begins, ran, full⟩
      · simp only [refused, reduceCtorEq, false_iff]
        rintro ⟨front, last, begins, ran, full⟩
        cases front with
        | nil => exact full fits
        | cons other front =>
            obtain ⟨same, _⟩ := List.cons_prefix_cons.mp begins
            rw [Position.run?, refuses other same.symm] at ran
            cases ran
      · simp only [broken_off, true_iff]
        refine ⟨[token], next, ?_, ?_, full⟩
        · rw [is_token]
          exact List.cons_prefix_cons.mpr ⟨rfl, List.nil_prefix⟩
        · rw [Position.run?, stepped]
          rfl

end Reading

/-- The distinct names among tokens, numbered in the order of their first occurrence. -/
def vocabulary (tokens : List Token) : AtomTable := .ofNames (names tokens).eraseDups

theorem distinct_empty : ({} : AtomTable).Distinct := List.nodup_nil

theorem fits_empty : ({} : AtomTable).Fits := Nat.zero_le _

theorem includingAll_names (tokens : List Token) :
    ({} : AtomTable).includingAll (names tokens) = vocabulary tokens := by
  have listed := distinct_empty.names_includingAll (names tokens)
  rw [List.nil_append] at listed
  rw [vocabulary, AtomTable.ofNames, ← listed, Array.toArray_toList]

theorem distinct_vocabulary (tokens : List Token) : (vocabulary tokens).Distinct := by
  rw [← includingAll_names]
  exact distinct_empty.includingAll _

theorem below_vocabulary (tokens : List Token) :
    (({} : AtomTable).includingAll (names tokens)).Below (vocabulary tokens) := by
  rw [includingAll_names]
  exact AtomTable.Below.refl _

/-- Reading tokens from the start. -/
theorem read?_start {placed : List Placed} {tokens : List Token} {last : Position}
    (lexemes : placed.map Placed.lexeme = tokens.map Lexeme.token)
    (ran : Position.start.run? tokens = some last) (fits : (vocabulary tokens).Fits) :
    ({} : State).read? placed =
      some (.ok (last.state (atomIn (vocabulary tokens)) (vocabulary tokens))) := by
  have names_eq := includingAll_names tokens
  rw [← names_eq] at fits
  have followed := read?_of_run? (distinct_vocabulary tokens) lexemes ran fits
    (below_vocabulary tokens)
  rw [names_eq] at followed
  exact followed

/-- What is kept can be finished only behind a whole expression. -/
theorem finish_state_eq_ok_iff {atomOf : String → Nat} {table : AtomTable} {length : Nat}
    {position : Position} {parsed : Parsed} :
    (position.state atomOf table).finish length = .ok parsed ↔
      ∃ expression, position = .complete .whole expression ∧
        parsed = { formula := expression.formula atomOf, table } := by
  cases position with
  | expecting hole =>
      rw [Position.state, State.finish]
      split <;> simp
  | complete site expression =>
      cases site with
      | whole =>
          simp only [Position.state, State.finish, Site.depth, ne_eq, not_true, if_false,
            Except.ok.injEq, Position.complete.injEq, true_and, exists_eq_left']
          exact eq_comm
      | group outer => simp [Position.state, State.finish, Site.depth]

/-- The reader accepts exactly the texts whose tokens have a derivation with no more names than there
are atoms, and finds the formula of the derivation over the distinct names of the text. -/
theorem parse?_eq_ok_iff {text : String} {parsed : Parsed} :
    parse? text = some (.ok parsed) ↔
      ∃ expression : Expression, Spells text.toList expression.tokens ∧
        (vocabulary expression.tokens).Fits ∧
        parsed =
          { formula := expression.formula (atomIn (vocabulary expression.tokens))
            table := vocabulary expression.tokens } := by
  constructor
  · intro parsed_eq
    rw [parse?] at parsed_eq
    split at parsed_eq
    · rename_i last read_eq
      obtain ⟨tokens, position, lexemes, ran, fits, rfl⟩ := exists_run?_of_read?
        (distinct_vocabulary _) .start fits_empty (below_vocabulary _) read_eq
      obtain ⟨expression, rfl, read_off⟩ :=
        finish_state_eq_ok_iff.mp (Option.some.inj parsed_eq)
      have derived := Position.run?_start_iff.mp ran
      subst derived
      rw [includingAll_names] at fits read_off
      rw [tokensOf_eq lexemes] at read_off
      exact ⟨expression, spells_iff.mpr lexemes, fits, read_off⟩
    · cases parsed_eq
    · cases parsed_eq
  · rintro ⟨expression, spells, fits, parsed_eq⟩
    have ran := Position.run?_start_iff.mpr (rfl : expression.tokens = expression.tokens)
    rw [parse?, read?_start (spells_iff.mp spells) ran fits]
    exact congrArg some (finish_state_eq_ok_iff.mpr ⟨expression, rfl, parsed_eq⟩)

/-- Number of distinct names among the tokens of a text, up to where no token can be cut off. -/
def nameCount (text : String) : Nat := (vocabulary (tokensOf (lex text))).count

theorem nameCount_eq {text : String} {tokens : List Token} (spells : Spells text.toList tokens) :
    nameCount text = (vocabulary tokens).count := by
  rw [nameCount, tokensOf_eq (spells_iff.mp spells)]

theorem vocabulary_below (front more : List Token) :
    (vocabulary front).Below (vocabulary (front ++ more)) := by
  rw [← includingAll_names, ← includingAll_names, names_append, AtomTable.includingAll_append]
  exact AtomTable.below_includingAll _ _

/-- From the start, reading breaks off exactly if some tokens at the beginning have a partial
derivation and more names than there are atoms. -/
theorem read?_start_eq_none_iff {placed : List Placed} :
    ({} : State).read? placed = none ↔
      ∃ front position, front.map Lexeme.token <+: placed.map Placed.lexeme ∧
        Position.start.run? front = some position ∧ ¬ (vocabulary front).Fits := by
  have start_eq : Position.start.state (atomIn (vocabulary (tokensOf placed))) {} = {} := rfl
  have broken_off := read?_eq_none_iff (distinct_vocabulary _) .start fits_empty
    (below_vocabulary (tokensOf placed))
  simp only [includingAll_names, start_eq] at broken_off
  exact broken_off

/-- Tokens with no more names than there are atoms are read, or a fault is found in them. -/
theorem read?_start_ne_none {placed : List Placed} (fits : (vocabulary (tokensOf placed)).Fits) :
    ({} : State).read? placed ≠ none := by
  intro broken_off
  obtain ⟨front, position, ⟨rest, begins⟩, _, full⟩ := read?_start_eq_none_iff.mp broken_off
  obtain ⟨early, later, rfl, lexemes, _⟩ := List.map_eq_append_iff.mp begins.symm
  rw [tokensOf_append, tokensOf_eq lexemes] at fits
  exact full (fits.of_below (vocabulary_below front _))

theorem parse?_eq_none_iff_read? {text : String} :
    parse? text = none ↔ ({} : State).read? (lex text) = none := by
  rw [parse?]
  split
  all_goals
    rename_i read_eq
    simp [read_eq]

/-- Reading breaks off exactly if some tokens at the beginning of the text have a partial derivation
and more names than there are atoms. -/
theorem parse?_eq_none_iff {text : String} :
    parse? text = none ↔
      ∃ front position, front.map Lexeme.token <+: (lex text).map Placed.lexeme ∧
        Position.start.run? front = some position ∧ ¬ (vocabulary front).Fits :=
  parse?_eq_none_iff_read?.trans read?_start_eq_none_iff

/-- A text with no more names than there are atoms is read, or a fault is found in it. -/
theorem parse?_ne_none {text : String} (fits : nameCount text ≤ atomLimit) : parse? text ≠ none :=
  fun broken_off => read?_start_ne_none fits (parse?_eq_none_iff_read?.mp broken_off)

/-- Reading a text that has a derivation breaks off if it has more names than there are atoms. -/
theorem parse?_eq_none_of_spells {text : String} {expression : Expression}
    (spells : Spells text.toList expression.tokens) (many : atomLimit < nameCount text) :
    parse? text = none := by
  rw [nameCount_eq spells] at many
  refine parse?_eq_none_iff.mpr ⟨expression.tokens, .complete .whole expression, ?_,
    Position.run?_start_iff.mpr rfl, Nat.not_le_of_lt many⟩
  simp only [spells_iff.mp spells, List.prefix_rfl]

/-- Whether a text is read as no formula, with a fault if it has no more names than there are
atoms. -/
structure Rejected (text : String) : Prop where
  /-- Reading it gives no formula. -/
  unread : ∀ parsed, parse? text ≠ some (.ok parsed)
  /-- It gives a fault instead, unless the atoms run out. -/
  faulty : nameCount text ≤ atomLimit → ∃ fault, parse? text = some (.error fault)

theorem rejected_of_unread {text : String} (unread : ∀ parsed, parse? text ≠ some (.ok parsed)) :
    Rejected text where
  unread := unread
  faulty fits := by
    obtain ⟨outcome, outcome_eq⟩ := Option.ne_none_iff_exists'.mp (parse?_ne_none fits)
    cases outcome with
    | ok parsed => exact absurd outcome_eq (unread parsed)
    | error fault => exact ⟨fault, outcome_eq⟩

end Grammar
end PropSat
