import Mathlib.Data.String.Basic
import PropSat.Proofs.Grammar.Recognition

/-!
# Beginnings of texts

Where a text goes on matters to its beginning only if that ends in a name, which must not go on
there.  A beginning that leads to a partial derivation can always be completed: by an operand, if
one has to follow, and then by as many parentheses as are open.  The operand may be a name that the
beginning has already, so that no further atom is needed.
-/

namespace PropSat

theorem Connective.utf8Size_eq (connective : Connective) :
    ∀ character ∈ connective.symbol.toList, character.utf8Size = 1 := by
  cases connective <;> simp [symbol, Char.utf8Size_eq_one_iff]

namespace Grammar

/-- Whether the beginning of a text consists of tokens with blanks only around them, before the rest
of the text. -/
inductive Begins (rest : List Char) : List Char → List Token → Prop where
  | nil : Begins rest [] []
  | blank {character : Char} {front : List Char} {tokens : List Token}
      (is_blank : isBlank character = true) (begins : Begins rest front tokens) :
      Begins rest (character :: front) tokens
  | token {token : Token} {front : List Char} {tokens : List Token}
      (fits : token.Fits (front ++ rest)) (begins : Begins rest front tokens) :
      Begins rest (token.text.toList ++ front) (token :: tokens)

section Spelling

variable {first : Char} {front rest other later text : List Char} {token : Token}
  {tokens all more : List Token}

theorem Spells.of_token (fits : token.Fits rest)
    (spells : Spells (token.text.toList ++ rest) all) :
    ∃ tokens, all = token :: tokens ∧ Spells rest tokens := by
  obtain ⟨first, after, spelled, not_blank⟩ := Token.exists_cons_of_fits fits
  have cut_eq : cut 0 first (after ++ rest) = .ok (token, rest) :=
    cut_of_fits fits (by rw [spelled, List.cons_append])
  have lexemes := lexemes_of_spells spells 0
  rw [spelled, List.cons_append, lexOnto_nil_of_cut (Bool.eq_false_iff.mp not_blank) cut_eq,
    List.map_cons] at lexemes
  obtain ⟨head, tokens, rfl, head_eq, rest_eq⟩ := List.map_eq_cons_iff.mp lexemes.symm
  cases head_eq
  exact ⟨tokens, rfl, spells_of_lexemes rest_eq.symm⟩

/-- What follows a beginning only has to keep its last token from going on. -/
theorem Begins.of_breaks (begins : Begins rest front tokens)
    (breaks : ∀ name, tokens.getLast? = some (.name name) → Breaks rest → Breaks other) :
    Begins other front tokens := by
  induction begins with
  | nil => exact .nil
  | blank is_blank begins induction => exact .blank is_blank (induction breaks)
  | @token token front tokens fits begins induction =>
      refine .token ?_ (induction fun name last => breaks name ?_)
      · cases token with
        | not | leftParen | rightParen | connective => trivial
        | name name =>
            refine ⟨fits.1, ?_⟩
            cases begins with
            | nil => exact breaks name rfl fits.2
            | @blank character front tokens is_blank begins => exact fits.2
            | @token token front tokens next_fits begins =>
                obtain ⟨first, after, spelled, _⟩ := Token.exists_cons_of_fits next_fits
                have going_on := fits.2
                rw [spelled] at going_on ⊢
                exact going_on
      · rw [List.getLast?_cons, last]
        rfl

theorem Spells.begins (spells : Spells text tokens) : Begins [] text tokens := by
  induction spells with
  | nil => exact .nil
  | blank is_blank spells induction => exact .blank is_blank induction
  | @token token rest tokens fits spells induction =>
      refine .token ?_ induction
      rw [List.append_nil]
      exact fits

theorem Begins.append_spells (begins : Begins rest front tokens) (spells : Spells rest more) :
    Spells (front ++ rest) (tokens ++ more) := by
  induction begins with
  | nil => exact spells
  | blank is_blank begins induction => exact .blank is_blank induction
  | token fits begins induction =>
      rw [List.append_assoc]
      exact .token fits induction

theorem utf8Size_of_isAlphanum (alphanumeric : first.isAlphanum = true) : first.utf8Size = 1 := by
  rw [Char.utf8Size_eq_one_iff, UInt32.le_iff_toNat_le]
  delta Char.isAlphanum Char.isAlpha Char.isUpper Char.isLower Char.isDigit at alphanumeric
  simp only [Bool.or_eq_true, Bool.and_eq_true, decide_eq_true_eq, ge_iff_le,
    UInt32.le_iff_toNat_le, Char.reduceVal, UInt32.reduceToNat] at alphanumeric ⊢
  omega

theorem utf8Size_of_isBlank (is_blank : isBlank first = true) : first.utf8Size = 1 := by
  simp only [isBlank, Bool.or_eq_true, decide_eq_true_eq] at is_blank
  rcases is_blank with (((rfl | rfl) | rfl) | rfl) | rfl <;> rfl

theorem Token.utf8Size_eq (fits : token.Fits rest) :
    ∀ character ∈ token.text.toList, character.utf8Size = 1 := by
  cases token with
  | name text => exact fun character member => utf8Size_of_isAlphanum (fits.1.2 character member)
  | not | leftParen | rightParen => exact List.forall_mem_singleton.mpr rfl
  | connective connective => exact connective.utf8Size_eq

theorem Begins.front_ne_nil (begins : Begins rest front tokens) (nonempty : tokens ≠ []) :
    front ≠ [] := by
  cases begins with
  | nil => exact absurd rfl nonempty
  | blank is_blank begins => exact List.cons_ne_nil _ _
  | token fits begins =>
      obtain ⟨first, after, spelled, _⟩ := Token.exists_cons_of_fits fits
      rw [spelled]
      exact List.cons_ne_nil _ _

/-- A beginning is made of characters of one byte. -/
theorem Begins.utf8Size_eq (begins : Begins rest front tokens) :
    ∀ character ∈ front, character.utf8Size = 1 := by
  induction begins with
  | nil => simp
  | blank is_blank begins induction =>
      exact List.forall_mem_cons.mpr ⟨utf8Size_of_isBlank is_blank, induction⟩
  | token fits begins induction =>
      exact List.forall_mem_append.mpr ⟨Token.utf8Size_eq fits, induction⟩

/-- Names in a beginning are names of source variables. -/
theorem Begins.sourceName (begins : Begins rest front tokens) {name : String}
    (member : name ∈ names tokens) : SourceName name := by
  rw [mem_names] at member
  induction begins with
  | nil => cases member
  | blank is_blank begins induction => exact induction member
  | token fits begins induction =>
      rcases List.mem_cons.mp member with rfl | later
      · exact fits.1
      · exact induction later

theorem utf8Len_of_utf8Size_eq (one_byte : ∀ character ∈ text, character.utf8Size = 1) :
    String.utf8Len text = text.length := by
  induction text with
  | nil => rfl
  | cons first rest induction =>
      rw [List.forall_mem_cons] at one_byte
      rw [String.utf8Len_cons, one_byte.1, induction one_byte.2, List.length_cons]

end Spelling

namespace Position

/-- Number of parentheses that are open behind a partial derivation. -/
def depth : Position → Nat
  | expecting hole => hole.depth
  | complete site _ => site.depth

theorem step?_connective (site : Site) (expression : Expression) (connective : Connective) :
    (complete site expression).step? (.connective connective) =
      some (expecting (.right site expression connective)) := by
  cases site <;> rfl

end Position

mutual

/-- A place for an expression is reached by the tokens on its left. -/
theorem Site.run?_start : ∀ site : Site,
    Position.start.run? site.tokens = some (.expecting (.first site))
  | .whole => rfl
  | .group outer => by
      rw [Site.tokens, Position.run?_append (Hole.run?_start outer)]
      rfl

/-- A place for an operand is reached by the tokens on its left. -/
theorem Hole.run?_start : ∀ hole : Hole,
    Position.start.run? hole.tokens = some (.expecting hole)
  | .first site => Site.run?_start site
  | .right site left connective => by
      rw [Hole.tokens, List.append_assoc, Position.run?_append (Site.run?_start site),
        Position.run?_append (Expression.run?_tokens site left), Position.run?,
        Position.step?_connective]
      rfl
  | .negand outer => by
      rw [Hole.tokens, Position.run?_append (Hole.run?_start outer)]
      rfl

end

mutual

/-- Closing the open parentheses behind an expression makes a whole expression of it. -/
theorem Site.exists_run?_closing : ∀ (site : Site) (expression : Expression), ∃ whole,
    (Position.complete site expression).run? (.replicate site.depth .rightParen) =
      some (.complete .whole whole)
  | .whole, expression => ⟨expression, rfl⟩
  | .group outer, expression => Hole.exists_run?_closing outer (.group expression)

theorem Hole.exists_run?_closing : ∀ (hole : Hole) (operand : Operand), ∃ whole,
    (Position.close hole operand).run? (.replicate hole.depth .rightParen) =
      some (.complete .whole whole)
  | .first site, operand => Site.exists_run?_closing site (.operand operand)
  | .right site left connective, operand =>
      Site.exists_run?_closing site (.chain left connective operand)
  | .negand outer, operand => Hole.exists_run?_closing outer (.not operand)

end

/-- No name stands right before a place for an operand. -/
theorem Hole.getLast?_tokens_ne (name : String) (hole : Hole) :
    hole.tokens.getLast? ≠ some (.name name) := by
  cases hole with
  | first site => cases site <;> simp [Hole.tokens, Site.tokens]
  | right | negand => simp [Hole.tokens]

/-- Whether a text completes a partial derivation to one of a whole expression, with no other name
than one. -/
def Position.Completes (position : Position) (name : String) (text : List Char) : Prop :=
  ∃ tokens expression, Spells text tokens ∧
    position.run? tokens = some (.complete .whole expression) ∧
      ∀ other ∈ names tokens, other = name

namespace Position

theorem spells_closing (count : Nat) :
    Spells (.replicate count ')') (.replicate count .rightParen) := by
  induction count with
  | zero => exact .nil
  | succ count induction => exact @Spells.token .rightParen _ _ trivial induction

theorem breaks_closing (count : Nat) : Breaks (.replicate count ')') := by
  cases count with
  | zero => exact breaks_nil
  | succ count => exact breaks_cons rfl

theorem names_closing (count : Nat) : names (.replicate count .rightParen) = [] := by
  induction count with
  | zero => rfl
  | succ count induction => exact induction

theorem completes_complete (site : Site) (expression : Expression) (name : String) :
    (complete site expression).Completes name (.replicate site.depth ')') := by
  obtain ⟨whole, ran⟩ := site.exists_run?_closing expression
  refine ⟨_, whole, spells_closing _, ran, ?_⟩
  rw [names_closing]
  exact fun other member => nomatch member

theorem completes_expecting (hole : Hole) {name : String} (source : SourceName name) :
    (expecting hole).Completes name (name.toList ++ .replicate hole.depth ')') := by
  obtain ⟨whole, ran⟩ := hole.exists_run?_closing (.name name)
  refine ⟨.name name :: _, whole,
    @Spells.token (.name name) _ _ ⟨source, breaks_closing _⟩ (spells_closing _), ran, ?_⟩
  rw [names_cons, names_closing]
  exact fun other member => List.mem_singleton.mp member

/-- A partial derivation can always be completed. -/
theorem exists_completes (position : Position) {name : String} (source : SourceName name) :
    ∃ text, position.Completes name text := by
  cases position with
  | expecting hole => exact ⟨_, completes_expecting hole source⟩
  | complete site expression => exact ⟨_, completes_complete site expression name⟩

theorem exists_completes_connective (site : Site) (expression : Expression)
    (connective : Connective) {name : String} (source : SourceName name) :
    ∃ text, (complete site expression).Completes name (connective.symbol.toList ++ text) := by
  obtain ⟨text, tokens, whole, spells, ran, only⟩ :=
    (expecting (.right site expression connective)).exists_completes source
  refine ⟨text, .connective connective :: tokens, whole,
    @Spells.token (.connective connective) _ _ trivial spells, ?_, only⟩
  rw [run?, step?_connective]
  exact ran

/-- No name goes on behind an expression. -/
theorem Completes.breaks {site : Site} {expression : Expression} {name : String} {text : List Char}
    (completes : (complete site expression).Completes name text) : Breaks text := by
  obtain ⟨tokens, whole, spells, ran, _⟩ := completes
  cases spells with
  | nil => exact breaks_nil
  | blank is_blank spells =>
      refine breaks_cons (Bool.eq_false_iff.mpr fun alphanumeric => ?_)
      rw [isBlank_of_isAlphanum alphanumeric] at is_blank
      cases is_blank
  | @token token rest tokens fits spells =>
      cases token with
      | name | not | leftParen => cases site <;> cases ran
      | rightParen => exact breaks_cons rfl
      | connective connective => exact connective.symbol_breaks rest

end Position

section Continuing

variable {front rest : List Char} {tokens : List Token}

/-- Anything may be written where an operand is due, without a change to what stands before. -/
theorem Begins.of_expecting {hole : Hole} (begins : Begins rest front tokens)
    (ran : Position.start.run? tokens = some (.expecting hole)) (other : List Char) :
    Begins other front tokens := by
  have tokens_eq : hole.tokens = tokens := Position.tokens_of_run? ran
  refine begins.of_breaks fun name last => ?_
  rw [← tokens_eq] at last
  exact absurd last (hole.getLast?_tokens_ne name)

/-- The names that complete a beginning may be some that it has already. -/
theorem Begins.exists_name (begins : Begins rest front tokens) (fits : (vocabulary tokens).Fits) :
    ∃ name, SourceName name ∧ (vocabulary (tokens ++ [.name name])).Fits := by
  cases names_eq : names tokens with
  | nil =>
      refine ⟨"x", ⟨by decide, List.all_eq_true.mp rfl⟩, ?_⟩
      have one_name : (vocabulary (tokens ++ [.name "x"])).count = 1 := by
        rw [vocabulary, names_append, names_eq]
        rfl
      rw [AtomTable.Fits, one_name]
      decide
  | cons name others =>
      have member : name ∈ names tokens := by
        rw [names_eq]
        exact List.mem_cons_self
      refine ⟨name, begins.sourceName member, fits_of_subset ?_ fits⟩
      rw [names_append]
      refine List.append_subset.mpr ⟨List.Subset.refl _, fun other listed => ?_⟩
      rw [List.mem_singleton.mp listed]
      exact member

/-- A beginning with something behind it that completes its partial derivation is a formula, if
there are atoms for its names. -/
theorem Begins.exists_parse? {position : Position} {name : String} {other : List Char}
    (begins : Begins rest front tokens) (ran : Position.start.run? tokens = some position)
    (completes : position.Completes name other)
    (fits : (vocabulary (tokens ++ [.name name])).Fits) :
    ∃ parsed, parse? (.ofList (front ++ other)) = some (.ok parsed) := by
  have continued : Begins other front tokens := by
    cases position with
    | expecting hole => exact begins.of_expecting ran other
    | complete site expression => exact begins.of_breaks fun _ _ _ => completes.breaks
  obtain ⟨more, expression, more_spells, completed, only⟩ := completes
  rw [← Position.run?_append ran] at completed
  have derived := Position.run?_start_iff.mp completed
  refine ⟨_, parse?_eq_ok_iff.mpr ⟨expression, ?_, ?_, rfl⟩⟩
  · rw [String.toList_ofList, derived]
    exact continued.append_spells more_spells
  · rw [derived]
    refine fits_of_subset ?_ fits
    rw [names_append, names_append]
    exact List.append_subset.mpr ⟨List.subset_append_left _ _, fun other member =>
      List.mem_append_right _ (List.mem_singleton.mpr (only other member))⟩

theorem Begins.of_head? {other : List Char} (begins : Begins rest front tokens)
    (same : other.head? = rest.head?) : Begins other front tokens := by
  refine begins.of_breaks fun _ _ breaks => ?_
  rw [Breaks, same]
  exact breaks

/-- The tokens of a beginning are read before those of the rest. -/
theorem Begins.exists_lexOnto (begins : Begins rest front tokens) (offset : Nat) :
    ∃ placed, placed.map Placed.lexeme = tokens.map Lexeme.token ∧
      lexOnto [] offset (front ++ rest) = placed ++ lexOnto [] (offset + front.length) rest := by
  induction begins generalizing offset with
  | nil => exact ⟨[], rfl, rfl⟩
  | blank is_blank begins induction =>
      obtain ⟨placed, lexemes, lexed⟩ := induction (offset + 1)
      refine ⟨placed, lexemes, ?_⟩
      rw [List.cons_append, lexOnto_of_isBlank [] is_blank, lexed, List.length_cons, Nat.add_assoc,
        Nat.add_comm 1]
  | @token token front tokens fits begins induction =>
      obtain ⟨placed, lexemes, lexed⟩ := induction (offset + token.text.utf8ByteSize)
      obtain ⟨first, after, spelled, not_blank⟩ := Token.exists_cons_of_fits fits
      have cut_eq : cut offset first (after ++ (front ++ rest)) = .ok (token, front ++ rest) :=
        cut_of_fits fits (by rw [spelled, List.cons_append])
      have size_eq : token.text.utf8ByteSize = token.text.toList.length := by
        rw [← String.utf8Len_toList, utf8Len_of_utf8Size_eq (Token.utf8Size_eq fits)]
      refine ⟨{ position := offset, lexeme := .token token } :: placed, ?_, ?_⟩
      · rw [List.map_cons, lexemes, List.map_cons]
      · rw [List.append_assoc, spelled, List.cons_append,
          lexOnto_nil_of_cut (Bool.eq_false_iff.mp not_blank) cut_eq, lexed, size_eq, spelled,
          List.length_append, ← Nat.add_assoc]
        rfl

/-- There are atoms for the names of a beginning on which reading does not break off. -/
theorem Begins.fits_of_parse? {position : Position} (begins : Begins rest front tokens)
    (ran : Position.start.run? tokens = some position)
    (read : parse? (.ofList (front ++ rest)) ≠ none) : (vocabulary tokens).Fits := by
  by_contra full
  obtain ⟨placed, lexemes, lexed⟩ := begins.exists_lexOnto 0
  refine read (parse?_eq_none_iff.mpr ⟨tokens, position, ?_, ran, full⟩)
  rw [lex, String.toList_ofList, lexed, List.map_append, lexemes]
  exact List.prefix_append _ _

end Continuing
end Grammar
end PropSat
