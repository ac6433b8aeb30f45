import PropSat.Grammar.Token
import PropSat.Proofs.Names

/-!
# Tokens of a text

A text spells a list of tokens if it consists of them with blanks only between them, where each name
is as long as possible.  Cutting finds the tokens of every text that has some, so there is at most
one such list.
-/

namespace PropSat
namespace Grammar

/-- Whether a token may stand before a text: a name must not go on there. -/
def Token.Fits (rest : List Char) : Token → Prop
  | .name text => SourceName text ∧ Breaks rest
  | _ => True

/-- Whether a text consists of tokens, with blanks only between them. -/
inductive Spells : List Char → List Token → Prop where
  | nil : Spells [] []
  | blank {character : Char} {rest : List Char} {tokens : List Token}
      (is_blank : isBlank character = true) (spells : Spells rest tokens) :
      Spells (character :: rest) tokens
  | token {token : Token} {rest : List Char} {tokens : List Token} (fits : token.Fits rest)
      (spells : Spells rest tokens) : Spells (token.text.toList ++ rest) (token :: tokens)

section Cutting

variable {position : Nat} {first : Char} {rest remaining : List Char} {token : Token}

theorem cut_of_isAlphanum (alphanumeric : first.isAlphanum = true) :
    cut position first rest =
      .ok (.name (.ofList (first :: rest.takeWhile Char.isAlphanum)),
        rest.dropWhile Char.isAlphanum) := by
  unfold cut
  split
  all_goals first
    | exact absurd alphanumeric (by decide)
    | rw [if_pos alphanumeric]

theorem isBlank_of_isAlphanum (alphanumeric : first.isAlphanum = true) :
    isBlank first = false := by
  rw [isBlank]
  simp only [Bool.or_eq_false_iff, decide_eq_false_iff_not]
  refine ⟨⟨⟨⟨?_, ?_⟩, ?_⟩, ?_⟩, ?_⟩
  all_goals
    rintro rfl
    revert alphanumeric
    decide

/-- A token that fits starts with a character that is no blank. -/
theorem Token.exists_cons_of_fits (fits : token.Fits rest) :
    ∃ first after, token.text.toList = first :: after ∧ isBlank first = false := by
  cases token with
  | name text =>
      obtain ⟨first, after, spelled⟩ := List.exists_cons_of_ne_nil fits.1.1
      refine ⟨first, after, spelled, isBlank_of_isAlphanum (fits.1.2 first ?_)⟩
      rw [spelled]
      exact List.mem_cons_self
  | not => exact ⟨'!', [], rfl, rfl⟩
  | leftParen => exact ⟨'(', [], rfl, rfl⟩
  | rightParen => exact ⟨')', [], rfl, rfl⟩
  | connective connective =>
      cases connective with
      | and => exact ⟨'&', [], rfl, rfl⟩
      | or => exact ⟨'|', [], rfl, rfl⟩
      | implies => exact ⟨'-', ['>'], rfl, rfl⟩
      | iff => exact ⟨'<', ['-', '>'], rfl, rfl⟩

theorem cut_of_fits (fits : token.Fits remaining)
    (spelled : first :: rest = token.text.toList ++ remaining) :
    cut position first rest = .ok (token, remaining) := by
  cases token with
  | name text =>
      obtain ⟨⟨nonempty, alphanumeric⟩, breaks⟩ := fits
      obtain ⟨head, after, text_eq⟩ := List.exists_cons_of_ne_nil nonempty
      rw [text_eq] at alphanumeric
      rw [Token.text, text_eq, List.cons_append, List.cons.injEq] at spelled
      obtain ⟨rfl, rfl⟩ := spelled
      have after_alphanumeric : ∀ character ∈ after, character.isAlphanum = true :=
        fun character member => alphanumeric character (.tail _ member)
      rw [cut_of_isAlphanum (alphanumeric first List.mem_cons_self),
        takeWhile_word after_alphanumeric breaks, dropWhile_word after_alphanumeric breaks,
        ← text_eq, String.ofList_toList]
  | not =>
      cases spelled
      rfl
  | leftParen =>
      cases spelled
      rfl
  | rightParen =>
      cases spelled
      rfl
  | connective connective => cases connective <;> cases spelled <;> rfl

theorem cut_sound (found : cut position first rest = .ok (token, remaining)) :
    first :: rest = token.text.toList ++ remaining ∧ token.Fits remaining := by
  unfold cut at found
  split at found
  all_goals try (cases found; exact ⟨rfl, trivial⟩)
  all_goals try cases found
  split at found
  · rename_i alphanumeric
    cases found
    constructor
    · simp [Token.text]
    · refine ⟨⟨by simp, ?_⟩, breaks_dropWhile rest⟩
      intro character member
      simp only [String.toList_ofList, List.mem_cons] at member
      rcases member with rfl | member
      · exact alphanumeric
      · exact List.all_eq_true.mp List.all_takeWhile character member
  · cases found

end Cutting

section Lexemes

variable {position : Nat} {first : Char} {rest remaining : List Char} {token : Token}

theorem lexOnto_of_isBlank (found : List Placed) (is_blank : isBlank first = true) :
    lexOnto found position (first :: rest) = lexOnto found (position + 1) rest := by
  rw [lexOnto, if_pos is_blank]

theorem lexOnto_of_cut (found : List Placed) (not_blank : ¬ isBlank first = true)
    (cut_eq : cut position first rest = .ok (token, remaining)) :
    lexOnto found position (first :: rest) =
      lexOnto ({ position, lexeme := .token token } :: found)
        (position + token.text.utf8ByteSize) remaining := by
  rw [lexOnto, if_neg not_blank]
  split
  · rename_i other_eq
    rw [cut_eq] at other_eq
    cases other_eq
    rfl
  · rename_i other_eq
    rw [cut_eq] at other_eq
    cases other_eq

theorem lexOnto_of_stray (found : List Placed) (not_blank : ¬ isBlank first = true)
    {fault : SyntaxFault} (cut_eq : cut position first rest = .error fault) :
    lexOnto found position (first :: rest) =
      ({ position, lexeme := .stray fault } :: found).reverse := by
  rw [lexOnto, if_neg not_blank]
  split
  · rename_i other_eq
    rw [cut_eq] at other_eq
    cases other_eq
  · rename_i other_eq
    rw [cut_eq] at other_eq
    cases other_eq
    rfl

/-- Lexemes found before stay in front. -/
theorem lexOnto_append (found earlier : List Placed) (position : Nat) (text : List Char) :
    lexOnto (found ++ earlier) position text =
      earlier.reverse ++ lexOnto found position text := by
  fun_induction lexOnto found position text with
  | case1 found position => rw [lexOnto, List.reverse_append]
  | case2 found position first rest is_blank induction =>
      rw [lexOnto_of_isBlank _ is_blank, induction]
  | case3 found position first rest not_blank token remaining cut_eq induction =>
      rw [lexOnto_of_cut _ not_blank cut_eq, ← induction, List.cons_append]
  | case4 found position first rest not_blank fault cut_eq =>
      rw [lexOnto_of_stray _ not_blank cut_eq, ← List.cons_append, List.reverse_append]

/-- Cutting a token off leaves the lexemes of the remaining text. -/
theorem lexOnto_nil_of_cut (not_blank : ¬ isBlank first = true)
    (cut_eq : cut position first rest = .ok (token, remaining)) :
    lexOnto [] position (first :: rest) =
      { position, lexeme := .token token } ::
        lexOnto [] (position + token.text.utf8ByteSize) remaining := by
  rw [lexOnto_of_cut [] not_blank cut_eq]
  exact lexOnto_append [] [_] _ remaining

/-- The tokens that a text spells are its lexemes. -/
theorem lexemes_of_spells {text : List Char} {tokens : List Token} (spells : Spells text tokens)
    (position : Nat) :
    (lexOnto [] position text).map Placed.lexeme = tokens.map Lexeme.token := by
  induction spells generalizing position with
  | nil => simp [lexOnto]
  | blank is_blank spells induction => rw [lexOnto_of_isBlank [] is_blank, induction]
  | @token token rest tokens fits spells induction =>
      obtain ⟨first, after, spelled, not_blank⟩ := Token.exists_cons_of_fits fits
      have cut_eq : cut position first (after ++ rest) = .ok (token, rest) :=
        cut_of_fits fits (by rw [spelled, List.cons_append])
      rw [spelled, List.cons_append, lexOnto_nil_of_cut (Bool.eq_false_iff.mp not_blank) cut_eq,
        List.map_cons, List.map_cons, induction]

/-- A text whose lexemes are all tokens spells them. -/
theorem spells_of_lexemes {position : Nat} {text : List Char} {tokens : List Token}
    (lexemes : (lexOnto [] position text).map Placed.lexeme = tokens.map Lexeme.token) :
    Spells text tokens := by
  induction length_eq : text.length using Nat.strongRecOn generalizing position text tokens with
  | ind length induction =>
      cases text with
      | nil =>
          rw [lexOnto, List.reverse_nil, List.map_nil, eq_comm, List.map_eq_nil_iff] at lexemes
          rw [lexemes]
          exact .nil
      | cons first rest =>
          rw [List.length_cons] at length_eq
          by_cases is_blank : isBlank first = true
          · rw [lexOnto_of_isBlank [] is_blank] at lexemes
            exact .blank is_blank (induction rest.length (by omega) lexemes rfl)
          · cases cut_eq : cut position first rest with
            | ok found =>
                obtain ⟨token, remaining⟩ := found
                obtain ⟨spelled, fits⟩ := cut_sound cut_eq
                have shorter := cut_length_le cut_eq
                rw [lexOnto_nil_of_cut is_blank cut_eq, List.map_cons] at lexemes
                obtain ⟨head, tail, rfl, head_eq, tail_eq⟩ := List.map_eq_cons_iff.mp lexemes.symm
                cases head_eq
                rw [spelled]
                exact .token fits (induction remaining.length (by omega) tail_eq.symm rfl)
            | error fault =>
                rw [lexOnto_of_stray [] is_blank cut_eq] at lexemes
                obtain ⟨head, tail, rfl, head_eq, _⟩ := List.map_eq_cons_iff.mp lexemes.symm
                cases head_eq

theorem spells_iff {text : String} {tokens : List Token} :
    Spells text.toList tokens ↔ (lex text).map Placed.lexeme = tokens.map Lexeme.token :=
  ⟨fun spells => lexemes_of_spells spells 0, spells_of_lexemes⟩

/-- A text spells at most one list of tokens. -/
theorem Spells.tokens_eq {text : List Char} {left right : List Token} (first : Spells text left)
    (second : Spells text right) : left = right := by
  have same := (lexemes_of_spells first 0).symm.trans (lexemes_of_spells second 0)
  exact (List.map_inj_right fun _ _ => Lexeme.token.inj).mp same

/-- Names in a spelled text are names of source variables. -/
theorem Spells.sourceName {text : List Char} {tokens : List Token} (spells : Spells text tokens)
    {name : String} (member : .name name ∈ tokens) : SourceName name := by
  induction spells with
  | nil => cases member
  | blank is_blank spells induction => exact induction member
  | token fits spells induction =>
      rcases List.mem_cons.mp member with rfl | later
      · exact fits.1
      · exact induction later

end Lexemes
end Grammar
end PropSat
